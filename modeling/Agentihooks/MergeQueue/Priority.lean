import Agentihooks.Library.Text
import Mathlib.Data.List.Basic

namespace MergeQueue

inductive EntryState
  | queued
  | awaitingChecks
  | mergeable
  | unmergeable
  | locked
  deriving DecidableEq, Repr

-- A pull request as `FIELDS` reads it, less its place in the merge queue.
structure PullRequest where
  id : String
  url : String
  headRefOid : String
  baseRefName : String
  state : String
  isDraft : Bool
  mergeQueue : Bool
  body : String
  deriving DecidableEq, Repr

structure Entry where
  state : EntryState
  pullRequest : PullRequest
  deriving DecidableEq, Repr

-- The pull requests of a host that no one else changes during a run.
structure GitHub where
  pulls : List PullRequest
  ids : (pulls.map (·.id)).Nodup
  urls : (pulls.map (·.url)).Nodup
  resource : String → Option PullRequest
  resource_mem : ∀ {url pull}, resource url = some pull → pull ∈ pulls

-- What becomes of one call: it answers, or raises before or after it takes effect.
inductive Fate
  | answers
  | raises (effect : Bool) (message : String)
  deriving DecidableEq, Repr

namespace Fate

def took : Fate → Bool
  | answers => true
  | raises effect _ => effect

def raised : Fate → Option String
  | answers => none
  | raises _ message => some message

end Fate

inductive Mutation
  | dequeue (id : String) (took : Bool)
  | queue (id : String) (took : Bool)
  deriving DecidableEq, Repr

-- The merge queue, the displaced record with its counter, and the calls made so far.
structure World where
  queue : List Entry
  displaced : String → Option (PullRequest × ℕ)
  order : ℕ
  calls : ℕ
  sent : List Mutation

namespace World

variable (fate : ℕ → Fate) (world : World)

def mergeQueueEntry (id : String) : Option EntryState :=
  (world.queue.find? fun entry => entry.pullRequest.id = id).map (·.state)

def add (pull : PullRequest) : World :=
  { world with
    displaced := fun url =>
      if url = pull.url then some (pull, world.order + 1) else world.displaced url
    order := world.order + 1 }

def discard (url : String) : World :=
  { world with displaced := fun other => if other = url then none else world.displaced other }

-- A call that only reads.
def ask : World × Option String :=
  ({ world with calls := world.calls + 1 }, (fate world.calls).raised)

-- `DEQUEUE`: the entry is removed.
def dequeue (id : String) : World × Option String :=
  let took := (fate world.calls).took
  ({ world with
      queue := if took then world.queue.filter (·.pullRequest.id ≠ id) else world.queue
      calls := world.calls + 1
      sent := world.sent ++ [.dequeue id took] },
    (fate world.calls).raised)

-- `QUEUE`: a new entry is appended at the end.
def enqueue (pull : PullRequest) : World × Option String :=
  let took := (fate world.calls).took
  ({ world with
      queue := if took then world.queue ++ [⟨.queued, pull⟩] else world.queue
      calls := world.calls + 1
      sent := world.sent ++ [.queue pull.id took] },
    (fate world.calls).raised)

end World

def marker : String :=
  "<!-- staged-compatibility"

def partition (sep : List Char) : List Char → Option (List Char × List Char)
  | [] => none
  | c :: text =>
    if sep.isPrefixOf (c :: text) then some ([], (c :: text).drop sep.length)
    else (partition sep text).map fun found => (c :: found.1, found.2)

-- The checks of a pull request's head that read other services: the declaration's JSON, its proof and the
-- required checks.
structure Checks (Proof : Type) where
  loads : String → Option Proof
  complete : Proof → Bool
  verify : Proof → String → String → Option String
  green : String → String → Option String

namespace Checks

variable {Proof : Type} (checks : Checks Proof)

def declaration (body : String) : Except String (Option Proof) :=
  match partition marker.toList body.toList with
  | none => .ok none
  | some (_, remainder) =>
    match partition "-->".toList remainder with
    | none => .error "staged compatibility: provide one complete declaration"
    | some (encoded, _) =>
      if (partition marker.toList remainder).isSome then
        .error "staged compatibility: provide one complete declaration"
      else
        match checks.loads (Text.lstrip (String.ofList encoded)) with
        | none => .error "staged compatibility: declaration must be valid JSON"
        | some proof =>
          if checks.complete proof then .ok (some proof)
          else .error
            "staged compatibility: finish all planned prerequisite edits and set complete to true"

-- What the declaration of a body says against a pull request at a head, when every read of its proof answers.
def refusal (url head body : String) : Option String :=
  match checks.declaration body with
  | .error message => some message
  | .ok none => none
  | .ok (some proof) => checks.verify proof url head

end Checks

section

variable {Proof : Type} (checks : Checks Proof) (fate : ℕ → Fate)

-- `staged_compatibility.require`: a body without a declaration makes no call.
def require (url head body : String) (world : World) : World × Option String :=
  match checks.declaration body with
  | .error message => (world, some message)
  | .ok none => (world, none)
  | .ok (some proof) =>
    match world.ask fate with
    | (world, some message) => (world, some message)
    | (world, none) => (world, checks.verify proof url head)

def requireGreen (url head : String) (world : World) : World × Option String :=
  match world.ask fate with
  | (world, some message) => (world, some message)
  | (world, none) => (world, checks.green url head)

-- The pages of the queue, a hundred entries each.
def pages : ℕ → List Entry → List (List Entry)
  | 0, entries => [entries]
  | fuel + 1, entries =>
    if entries.length ≤ 100 then [entries]
    else entries.take 100 :: pages fuel (entries.drop 100)

-- Those waiting ahead of the target and, once it was met, behind it.
structure Around where
  ahead : List PullRequest
  behind : List PullRequest
  met : Bool

def Around.note (target : String) (around : Around) (entry : Entry) : Around :=
  if entry.pullRequest.id = target then { around with met := true }
  else if entry.state = .queued then
    if around.met then { around with behind := around.behind ++ [entry.pullRequest] }
    else { around with ahead := around.ahead ++ [entry.pullRequest] }
  else around

def readPages (target : String) : List (List Entry) → Around → World → World × Except String Around
  | [], around, world => (world, .ok around)
  | page :: rest, around, world =>
    match world.ask fate with
    | (world, some message) => (world, .error message)
    | (world, none) => readPages target rest (page.foldl (Around.note target) around) world

def waitingAround (target : String) (world : World) : World × Except String Around :=
  readPages fate target (pages world.queue.length world.queue) ⟨[], [], false⟩ world

-- The loop of `displace`, over the waiting pull requests from the back.
def dequeues : List PullRequest → World → List PullRequest →
    World × List PullRequest × Option String
  | [], world, removed => (world, removed, none)
  | pull :: rest, world, removed =>
    match world.ask fate with
    | (world, some message) => (world, removed, some message)
    | (world, none) =>
      if world.mergeQueueEntry pull.id = some .queued then
        match world.dequeue fate pull.id with
        | (world, some message) => (world, removed ++ [pull], some message)
        | (world, none) => dequeues rest world (removed ++ [pull])
      else dequeues rest (world.discard pull.url) removed

def displace (waiting : List PullRequest) (world : World) :
    World × List PullRequest × Option String :=
  dequeues fate waiting.reverse (waiting.foldl World.add world) []

-- One removed pull request put back; whether it had to be queued.
def restoreOne (pull : PullRequest) (world : World) : World × Except String Bool :=
  match world.ask fate with
  | (world, some message) => (world, .error message)
  | (world, none) =>
    match world.mergeQueueEntry pull.id with
    | some _ => (world.discard pull.url, .ok false)
    | none =>
      match require checks fate pull.url pull.headRefOid pull.body world with
      | (world, some message) => (world, .error message)
      | (world, none) =>
        match world.enqueue fate pull with
        | (world, some message) => (world, .error message)
        | (world, none) => (world.discard pull.url, .ok true)

-- The loop of `restore`, over the removed pull requests in queue order; the first that fails ends it.
def restores : List PullRequest → World → World × List String × List String
  | [], world => (world, [], [])
  | pull :: rest, world =>
    match restoreOne checks fate pull world with
    | (world, .error message) => (world, [], [s!"could not restore {pull.url}: {message}"])
    | (world, .ok again) =>
      match restores rest world with
      | (world, restored, errors) =>
        (world, if again then pull.url :: restored else restored, errors)

def restore (removed : List PullRequest) (world : World) : World × List String × List String :=
  restores checks fate removed.reverse world

-- The target itself is queued when it has no entry.
def queueTarget (target : PullRequest) (world : World) : World × Option String :=
  match world.ask fate with
  | (world, some message) => (world, some message)
  | (world, none) =>
    match world.mergeQueueEntry target.id with
    | some _ => (world, none)
    | none => world.enqueue fate target

structure Report where
  url : String
  displaced : List String
  errors : List String
  deriving DecidableEq, Repr

-- `prioritize` from the displacement on, of an admitted target.
def reorder (target : PullRequest) (url : String) (targetQueued : Bool)
    (waiting : List PullRequest) (world : World) : World × Report :=
  match displace fate waiting world with
  | (world, removed, failed) =>
    match if failed.isNone || targetQueued then queueTarget fate target world
      else (world, none) with
    | (world, unqueued) =>
      match restore checks fate removed world with
      | (world, restored, errors) =>
        (world, ⟨url, restored, failed.toList ++ unqueued.toList ++ errors⟩)

variable (github : GitHub)

-- What `prioritize` checks of its target before it changes anything.
def admitPull (url : String) (world : World) : World × Except String PullRequest :=
  match world.ask fate with
  | (world, some message) => (world, .error message)
  | (world, none) =>
    match github.resource url with
    | none => (world, .error "queue priority requires an open pull request into dev")
    | some raw =>
      if raw.baseRefName ≠ "dev" ∨ raw.state ≠ "OPEN" then
        (world, .error "queue priority requires an open pull request into dev")
      else if raw.isDraft then
        (world, .error "queue priority requires a ready pull request")
      else if ¬raw.mergeQueue then
        (world, .error "queue priority requires a dev merge queue")
      else
        match require checks fate url raw.headRefOid raw.body world with
        | (world, some message) => (world, .error message)
        | (world, none) =>
          match requireGreen checks fate url raw.headRefOid world with
          | (world, some message) => (world, .error message)
          | (world, none) => (world, .ok raw)

def prioritize (url : String) (ahead : List String) (world : World) :
    World × Except String Report :=
  match admitPull checks fate github url world with
  | (world, .error message) => (world, .error message)
  | (world, .ok raw) =>
    match waitingAround fate raw.id world with
    | (world, .error message) => (world, .error message)
    | (world, .ok around) =>
      let waiting := (around.ahead ++ around.behind).filter fun pull => pull.url ∉ ahead
      let queued := (world.mergeQueueEntry raw.id).isSome
      match reorder checks fate raw url queued waiting world with
      | (world, report) => (world, .ok report)

end

end MergeQueue
