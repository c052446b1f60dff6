import Mathlib.Data.Finmap

-- A bucket of the Redis state store. Beside the current rows it keeps the projections of some of them, which hold as
-- long as the revision they were published at is the revision of the bucket. A write watches what it reads, hence the
-- attempt that succeeds is one step.

namespace StateStore

structure StateEntry (α : Type) where
  value    : α
  revision : ℕ
  deriving DecidableEq

-- The hashes `current` and `projected`, the strings `revision` and `published`, and a list of rows for each key.
structure Bucket (κ α β : Type) where
  current   : Finmap fun _ : κ => StateEntry α
  revision  : Option ℕ
  history   : κ → List (StateEntry α)
  projected : Finmap fun _ : κ => StateEntry β
  published : Option ℕ

inductive Failure
  | stateConflict
  | valueError
  deriving DecidableEq

variable {κ α β : Type} [DecidableEq κ]

namespace Bucket

def empty : Bucket κ α β :=
  ⟨∅, none, fun _ => [], ∅, none⟩

def get (s : Bucket κ α β) (key : κ) : Option (StateEntry α) :=
  s.current.lookup key

def getProjection (s : Bucket κ α β) (key : κ) : Option (StateEntry β) :=
  if s.revision = s.published then s.projected.lookup key else none

def HISTORY : ℕ := 2

-- `incr`, `hset`, `rpush` and `ltrim`.
def put (s : Bucket κ α β) (key : κ) (row : StateEntry α) : Bucket κ α β :=
  let rows := s.history key ++ [row]
  { s with
    revision := some (s.revision.getD 0 + 1)
    current  := s.current.insert key row
    history  := Function.update s.history key (rows.drop (rows.length - HISTORY)) }

def project (projection : Option (α → β)) (s : Bucket κ α β) (key : κ) (value : α) (revision : ℕ)
    (consistent : Bool) : Bucket κ α β :=
  let rows := if consistent then s.projected else ∅
  { s with
    projected := match projection with
      | none            => rows.erase key
      | some projection => rows.insert key ⟨projection value, revision⟩
    published := some revision }

-- `_write`, for `create` without a revision and for `update` with one.
def write (projection : Option (α → β)) (s : Bucket κ α β) (key : κ) (value : α) (revision : Option ℕ) :
    Except Failure (Bucket κ α β × ℕ) :=
  if (s.current.lookup key).map StateEntry.revision ≠ revision then .error .stateConflict
  else
    let written := s.revision.getD 0 + 1
    let projected :=
      if projection.isSome || s.published.isSome then
        s.project projection key value written (s.revision = s.published)
      else s
    .ok (projected.put key ⟨value, written⟩, written)

-- `queue_write`, with the revision that its transaction read.
def queueWrite (s : Bucket κ α β) (key : κ) (value : α) (current : ℕ) : Bucket κ α β :=
  s.put key ⟨value, current + 1⟩

def watch (s : Bucket κ α β) (key : κ) (fromRevision : ℕ) : List (StateEntry α) :=
  (s.history key).filter fun entry => fromRevision ≤ entry.revision

end Bucket

-- A writer of this code projects or does not. An older one only bumps the revision and sets the value, whatever it
-- checks before. A transaction that watches the store reads the revision as a number and queues its write.
inductive Step (κ α : Type)
  | write (projects : Bool) (key : κ) (value : α) (revision : Option ℕ)
  | older (key : κ) (value : α)
  | queue (key : κ) (value : α)

variable (projection : α → β)

def attempt (s : Bucket κ α β) : Step κ α → Except Failure (Bucket κ α β)
  | .write projects key value revision =>
    (s.write (if projects then some projection else none) key value revision).map Prod.fst
  | .older key value => .ok (s.put key ⟨value, s.revision.getD 0 + 1⟩)
  | .queue key value =>
    match s.revision with
    | none         => .error .valueError
    | some current => .ok (s.queueWrite key value current)

def step (s : Bucket κ α β) (x : Step κ α) : Bucket κ α β :=
  match attempt projection s x with
  | .ok s'   => s'
  | .error _ => s

def run (steps : List (Step κ α)) : Bucket κ α β :=
  steps.foldl (step projection) .empty

end StateStore
