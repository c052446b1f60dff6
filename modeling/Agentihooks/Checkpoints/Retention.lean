import Agentihooks.Library.Run
import Mathlib.Data.List.Sort
import Mathlib.Data.Int.Order.Basic
import Mathlib.Order.Basic

-- The collection of expired checkpoint objects: a plan that is journaled once, and a new decision before every removal.

namespace Retention

structure StoredObject where
  objectId  : String
  corpus    : String
  dataClass : String
  createdAt : ℤ
  retention : String
  deriving DecidableEq

-- The manifest is itself a stored object of the checkpoint's id.
structure Checkpoint where
  checkpointId : String
  taskId       : String
  sequence     : ℤ
  complete     : Bool
  objects      : List String
  deriving DecidableEq

-- The longest age of each class of a corpus, where its objects expire at all.
structure Policy where
  corpus        : String
  version       : String
  maxAgeSeconds : List (String × Option ℕ)

inductive Reason
  | eligible
  | activeRestore
  | evidenceHold
  | latestCheckpoint
  | referenced
  | noPolicy
  | notExpired
  | unknownClass
  deriving DecidableEq

-- What the inventory, the holds and the clock show at one time.
structure World where
  objects     : List StoredObject
  checkpoints : List Checkpoint
  restoring   : List String
  evidence    : List String
  active      : List String
  now         : ℤ

def classes : List String :=
  ["raw_evidence", "native_resume", "preview", "vector", "operational_log"]

def untilExpiry : String := "retain-until-expiry"

def Policy.expired (policy : Policy) (dataClass : String) (createdAt now : ℤ) (retention : String) : Bool :=
  match policy.maxAgeSeconds.lookup dataClass with
  | some (some age) => retention = untilExpiry ∧ (age : ℤ) ≤ now - createdAt
  | _               => false

def policyOf (policies : List Policy) (corpus : String) : Option Policy :=
  policies.find? (·.corpus = corpus)

-- The first of the highest complete checkpoints of each active task.
def best (active : List String) (best : String → Option Checkpoint) (c : Checkpoint) : String → Option Checkpoint :=
  if c.complete ∧ c.taskId ∈ active then
    match best c.taskId with
    | none      => fun task => if task = c.taskId then some c else best task
    | some held => if held.sequence < c.sequence then fun task => if task = c.taskId then some c else best task else best
  else best

def latest (checkpoints : List Checkpoint) (active : List String) : List String :=
  let found := checkpoints.foldl (best active) fun _ => none
  checkpoints.filterMap fun c => (found c.taskId).map (·.checkpointId)

-- A checkpoint under restore, or the latest of an active task, pins its manifest and what it names.
def pin (restoring latest : List String) (pinned : String → Option Reason) (c : Checkpoint) : String → Option Reason :=
  let reason : Option Reason :=
    if c.checkpointId ∈ restoring then some .activeRestore
    else if c.checkpointId ∈ latest then some .latestCheckpoint
    else none
  match reason with
  | none        => pinned
  | some reason => fun id =>
    if (id = c.checkpointId ∨ id ∈ c.objects) ∧ pinned id ≠ some .activeRestore then some reason else pinned id

def pinned (w : World) : String → Option Reason :=
  w.checkpoints.foldl (pin w.restoring (latest w.checkpoints w.active)) fun _ => none

variable (policies : List Policy)

-- What an object's own policy, pins and holds say of it.
def ownOf (w : World) (item : StoredObject) : Reason :=
  match pinned w item.objectId with
  | some reason => reason
  | none        =>
    if item.objectId ∈ w.evidence then .evidenceHold
    else if item.dataClass ∉ classes then .unknownClass
    else
      match policyOf policies item.corpus with
      | none        => .noPolicy
      | some policy =>
        if policy.expired item.dataClass item.createdAt w.now item.retention then .eligible else .notExpired

-- The last object of an id stands for it.
def own (w : World) (id : String) : Option Reason :=
  (w.objects.reverse.find? (·.objectId = id)).map (ownOf policies w)

-- A manifest that is kept keeps the eligible objects it names.
def refer (decisions : String → Option Reason) (c : Checkpoint) : String → Option Reason :=
  if decisions c.checkpointId = none ∨ decisions c.checkpointId = some .eligible then decisions
  else fun id => if id ∈ c.objects ∧ decisions id = some .eligible then some .referenced else decisions id

def decisions (w : World) : String → Option Reason :=
  w.checkpoints.foldl refer (own policies w)

def eligible (w : World) : List String :=
  ((w.objects.map (·.objectId)).dedup.filter fun id => decisions policies w id = some .eligible).insertionSort (· ≤ ·)

-- Manifests first, then by id.
def Before (manifests : List String) (x y : String) : Prop :=
  if x ∈ manifests then y ∉ manifests ∨ x ≤ y else y ∉ manifests ∧ x ≤ y

instance (manifests : List String) : DecidableRel (Before manifests) :=
  fun x y => inferInstanceAs (Decidable (if x ∈ manifests then y ∉ manifests ∨ x ≤ y else y ∉ manifests ∧ x ≤ y))

def ordered (eligible : List String) (checkpoints : List Checkpoint) : List String :=
  eligible.insertionSort (Before (checkpoints.map (·.checkpointId)))

inductive Entry
  | planned (eligible : List String)
  | deleted (id : String)
  | skipped (id : String) (reason : Reason)
  | absent (id : String)
  deriving DecidableEq

-- The objects that an entry settles.
def Entry.settles : Entry → List String
  | .planned _   => []
  | .deleted id  => [id]
  | .skipped id _ => [id]
  | .absent id   => [id]

-- Where the collector is: before the plan is journaled, at the next object, after the decision on it, or after its
-- removal.
inductive Phase
  | idle
  | planning (run : String) (eligible : List String) (destructive : Bool)
  | loop (run : String) (settled left : List String)
  | decided (run : String) (settled : List String) (id : String) (reason : Option Reason) (left : List String)
  | removed (run : String) (settled : List String) (id : String) (left : List String)
  deriving DecidableEq

-- The world, the journal of each run, where the collector is, and what was removed on which decision.
structure State where
  world    : World
  journal  : String → List Entry
  phase    : Phase
  decision : World
  removals : List (World × String)

inductive Event
  | change (world : World)
  | start (run : String) (destructive : Bool)
  | tick
  | crash

def append (s : State) (run : String) (entry : Entry) : State :=
  { s with journal := fun other => if other = run then s.journal run ++ [entry] else s.journal other }

def World.remove (w : World) (id : String) : World :=
  { w with objects := w.objects.filter (·.objectId ≠ id) }

-- The objects of a journaled plan, and those settled since.
def plan (entries : List Entry) : List String :=
  match entries with
  | .planned eligible :: _ => eligible
  | _                      => []

def settled (entries : List Entry) : List String :=
  entries.tail.flatMap Entry.settles

-- The next step of the collector.
def tick (s : State) : State :=
  match s.phase with
  | .idle => s
  | .planning run found destructive =>
    let s := if s.journal run = [] then append s run (.planned (ordered found s.world.checkpoints)) else s
    { s with phase := if destructive then .loop run (settled (s.journal run)) (plan (s.journal run)) else .idle }
  | .loop _ _ [] => { s with phase := .idle }
  | .loop run settled (id :: left) =>
    if id ∈ settled then { s with phase := .loop run settled left }
    else { s with phase := .decided run settled id (decisions policies s.world id) left, decision := s.world }
  | .decided run settled id none left =>
    { append s run (.absent id) with phase := .loop run settled left }
  | .decided run settled id (some .eligible) left =>
    { s with
      world    := s.world.remove id
      phase    := .removed run settled id left
      removals := s.removals ++ [(s.decision, id)] }
  | .decided run settled id (some reason) left =>
    { append s run (.skipped id reason) with phase := .loop run settled left }
  | .removed run settled id left =>
    { append s run (.deleted id) with phase := .loop run settled left }

def step (s : State) : Event → State
  | .change world          => { s with world := world }
  | .start run destructive =>
    if s.phase = .idle then { s with phase := .planning run (eligible policies s.world) destructive } else s
  | .tick                  => tick policies s
  | .crash                 => { s with phase := .idle }

def init (world : World) (journal : String → List Entry) : State :=
  ⟨world, journal, .idle, world, []⟩

end Retention
