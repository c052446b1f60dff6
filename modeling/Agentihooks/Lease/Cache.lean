import Agentihooks.Library.Run
import Agentihooks.Fencing.Write

-- The cached leases of the swarms of one bucket. Every write of a key of the bucket takes its next revision, and the
-- writer of a document stores the lease of it afterwards, under that revision and a key of its own. A reader looks at
-- the cached lease first and at the revision of the bucket then.

namespace Lease

open Program Versioned Fencing

-- The payload of `_cache_lease`.
structure Cached where
  revision    : ℕ
  lease       : Option Lease
  epoch       : Int
  legacyOwner : String

def cacheOf (d : Document) (revision : ℕ) : Cached :=
  ⟨revision, d.lease, d.epoch, d.legacyOwner⟩

-- What `records` picks.
inductive Port
  | records
  | wholeDocument
  deriving DecidableEq

-- Callers are writers and readers: an attempt of `write` is loaded and not yet committed, a port is picked and not yet
-- used, a lease is still to be cached, or a cached lease was looked at.
structure Bucket (α : Type) where
  revision : ℕ
  entries  : String → Option Entry
  stores   : String → Store
  cached   : String → Option Cached
  attempts : ℕ → Option (String × WriteAttempt α)
  ports    : ℕ → Option (String × Port)
  pending  : ℕ → Option (String × Cached)
  looks    : ℕ → Option (String × Option Cached)

namespace Bucket

-- `other` is a write of a key that is no document, as an archive chunk is. A caller may do anything at any time, hence
-- a lease may never be cached.
inductive Event (α : Type)
  | create (slug : String) (legacy : Document)
  | load (caller : ℕ) (slug : String) (write : FencedWrite α)
  | run (caller : ℕ)
  | commit (caller : ℕ) (nowMs : Int)
  | records (caller : ℕ) (slug : String)
  | batch (caller : ℕ) (fence : Option LeaseFence) (batch : Batch Section.Value)
  | cache (caller : ℕ)
  | other
  | migrate (slug : String)
  | look (caller : ℕ) (slug : String)

variable {α : Type}

def start : Bucket α where
  revision := 0
  entries  := fun _ => none
  stores   := fun _ => .empty
  cached   := fun _ => none
  attempts := fun _ => none
  ports    := fun _ => none
  pending  := fun _ => none
  looks    := fun _ => none

-- `states.update` and what is then to be cached.
def put (s : Bucket α) (caller : ℕ) (slug : String) (entry : Entry) : Bucket α :=
  { s with
    revision := s.revision + 1
    entries  := Function.update s.entries slug (some { entry with revision := s.revision + 1 })
    pending  := Function.update s.pending caller (some (slug, cacheOf entry.decode (s.revision + 1))) }

def migrate (s : Bucket α) (slug : String) (entry : Entry) : Bucket α :=
  let swarm := (Swarm.mk entry (s.stores slug)).migrate (s.revision + 1)
  { s with
    revision := s.revision + 1
    entries  := Function.update s.entries slug (some swarm.entry)
    stores   := Function.update s.stores slug swarm.store }

def leave (s : Bucket α) (caller : ℕ) : Bucket α :=
  { s with attempts := Function.update s.attempts caller none }

def commit (s : Bucket α) (caller : ℕ) (slug : String) (entry : Entry) (t : WriteAttempt α) (nowMs : Int) : Bucket α :=
  match t with
  | .document t =>
    match t.commit entry with
    | .committed _ next => s.put caller slug next
    | _                 => s
  | .records t =>
    match t.commit nowMs (s.stores slug) with
    | .committed _ next => { s with stores := Function.update s.stores slug next }
    | _                 => s

def batch (s : Bucket α) (caller : ℕ) (slug : String) (entry : Entry) (port : Port) (fence : Option LeaseFence)
    (batch : Batch Section.Value) : Bucket α :=
  match port with
  | .wholeDocument =>
    match entry.fencedBatch fence batch with
    | .committed _ next => s.put caller slug next
    | _                 => s
  | .records =>
    match fencedBatch (s.stores slug) fence batch with
    | .ok next => { s with stores := Function.update s.stores slug next }
    | .error _ => s

def step (s : Bucket α) : Event α → Bucket α
  | .create slug legacy =>
    match s.entries slug with
    | some _ => s
    | none   => { s with
      revision := s.revision + 1
      entries  := Function.update s.entries slug (some ⟨legacy, none, false, s.revision + 1⟩) }
  | .load caller slug write =>
    match s.entries slug with
    | none       => s
    | some entry => { s with
      attempts := Function.update s.attempts caller (some (slug, (Swarm.mk entry (s.stores slug)).start write)) }
  | .run caller =>
    match s.attempts caller with
    | none           => s
    | some (slug, t) => { s with
      attempts := Function.update s.attempts caller (some (slug, t.hydrate (s.stores slug))) }
  | .commit caller nowMs =>
    match s.attempts caller with
    | none           => s
    | some (slug, t) =>
      match s.entries slug with
      | none       => s.leave caller
      | some entry => (s.commit caller slug entry t nowMs).leave caller
  | .records caller slug => { s with
    ports := Function.update s.ports caller
      (some (slug, if layout (s.stores slug) = "records" then .records else .wholeDocument)) }
  | .batch caller fence batch =>
    match s.ports caller with
    | none              => s
    | some (slug, port) =>
      match s.entries slug with
      | none       => s
      | some entry => s.batch caller slug entry port fence batch
  | .cache caller =>
    match s.pending caller with
    | none                => s
    | some (slug, cached) => { s with
      cached  := Function.update s.cached slug (some cached)
      pending := Function.update s.pending caller none }
  | .other => { s with revision := s.revision + 1 }
  | .migrate slug =>
    match s.entries slug with
    | none       => s
    | some entry => if layout (s.stores slug) = "records" then s else s.migrate slug entry
  | .look caller slug => { s with looks := Function.update s.looks caller (some (slug, s.cached slug)) }

def run (es : List (Event α)) : Bucket α :=
  Run.run step start es

-- What `read_lease` answers where the revision is read now.
def readLease (s : Bucket α) (caller : ℕ) : Option (String × Option Lease) :=
  match s.looks caller with
  | some (slug, some cached) => if cached.revision = s.revision then some (slug, cached.lease) else none
  | _                        => none

-- The document of a swarm, on whichever layout it is.
def document (s : Bucket α) (slug : String) : Option Document :=
  (s.entries slug).map fun entry => (Swarm.mk entry (s.stores slug)).document

-- A batch through the port of a whole document does not find the document moved.
def Unmoved (s : Bucket α) : Event α → Prop
  | .batch caller _ _ => ∀ slug entry, s.ports caller = some (slug, .wholeDocument) → s.entries slug = some entry →
    entry.moved = false
  | _                 => True

end Bucket

-- `renew` on a cached lease: it is refused, or returned, or there is no answer.
def cheap (recorded : Option Lease) (held : Lease) (now tick : Int) : Option (Except SwarmError Lease) :=
  if (Held.lease held).isLive recorded now then
    recorded.bind fun live => if live.expiresAt - now ≥ 3 * tick - tick then some (.ok live) else none
  else some (.error stale)

end Lease
