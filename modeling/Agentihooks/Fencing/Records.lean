import Agentihooks.Library.Finmap
import Agentihooks.Library.Versioned
import Mathlib.Data.String.Basic
import Agentihooks.Lease.Changes

-- The per record layout: every record under a revision of its own, and a fenced write that loads the
-- sections, runs its change on a tracked copy, and commits what the change wrote together with a check of
-- what it read.

namespace Fencing

open Program Versioned

abbrev Store :=
  Versioned.Store Section.Value

-- The sections a write has loaded, of those it loads.
abbrev Loaded :=
  (s : Section) → Option (Finmap fun k => Record (s.Value k))

-- `LOADED`.
def Section.isLoaded : Section → Bool
  | archive | archivedNames => false
  | _                       => true

-- `port.sections(slug, names)`.
def sections (store : Store) (names : Section → Bool) : Loaded :=
  fun s => if names s then some (store.rows s) else none

namespace Loaded

def rows (loaded : Loaded) (s : Section) : Finmap fun k => Record (s.Value k) :=
  (loaded s).getD ∅

def values (loaded : Loaded) (s : Section) : Finmap s.Value :=
  (loaded.rows s).mapValues fun _ => Record.value

end Loaded

-- The scalars of `EMPTY`.
def defaults : Finmap Scalar.Value :=
  .build {.lease, .legacyOwner, .epoch, .leaderChanges, .grantsDisabled} fun
    | .lease          => some none
    | .legacyOwner    => some ""
    | .epoch          => some (0 : Int)
    | .leaderChanges  => some (0 : ℕ)
    | .grantsDisabled => some ""
    | .layout         => none
    | .other _        => none

-- `_assemble`.
def assemble (loaded : Loaded) : Document
  | .scalar                  => (loaded.values .scalar).erase Scalar.layout ∪ defaults
  | .byName | .archivedNames => ∅
  | s                        => loaded.values s

-- The document a write starts from.
def loadedDocument (store : Store) : Document :=
  assemble (sections store Section.isLoaded)

-- `_heads`: the newest execution under each name.
def heads (rows : Dict String AgentRecord) : Dict String String :=
  .build (rows.keys.biUnion fun key => (rows.lookup key).elim ∅ ({·.name})) fun name =>
    rows.newest (·.name = name) (·.generation)

-- `_expected`.
def expected (loaded : Loaded) (s : Section) (k : s.Key) : Option ℕ :=
  (loaded s).map fun rows => revisionOf (rows.lookup k)

-- `_section_changes`, which `_changes` repeats for the scalars.
def sectionChanges (s : Section) (before after : Finmap s.Value) (loaded : Loaded) :
    Finmap fun k => Write (s.Value k) :=
  .build (before.keys ∪ after.keys) fun k =>
    if before.lookup k = after.lookup k then
      none
    else
      some (.toLeave (expected loaded s k) (after.lookup k))

-- A document together with the name indexes that are derived from it.
def indexed (d : Document) : Document
  | .byName        => heads (d .executions)
  | .archivedNames => heads (d .archive)
  | s              => d s

-- `_changes`.
def changes (before after : Document) (loaded : Loaded) : Batch Section.Value :=
  fun s => sectionChanges s (indexed before s) (indexed after s) loaded

-- `Reads`: what a change read of a section, by key or as a whole.
structure Reads (s : Section) where
  seen  : Finset s.Key
  whole : Bool

-- The sections whose reads are tracked; a section the change replaced is none of them.
abbrev ReadSet :=
  (s : Section) → Option (Reads s)

namespace ReadSet

-- `_track`.
def initial : ReadSet
  | .archive | .byName | .archivedNames => none
  | _                                   => some ⟨∅, false⟩

def see (reads : ReadSet) (s : Section) (k : s.Key) : ReadSet :=
  Function.update reads s ((reads s).map fun r => { r with seen := insert k r.seen })

def seeAll (reads : ReadSet) (s : Section) : ReadSet :=
  Function.update reads s ((reads s).map fun r => { r with whole := true })

-- The scalars are the document itself, which a change cannot replace.
def drop (reads : ReadSet) (s : Section) : ReadSet :=
  if s = .scalar then reads else Function.update reads s none

end ReadSet

-- `_read_set` after the change.
def readSet {α : Type} (history : History) : Change α → Document → ReadSet → ReadSet
  | .done _,             _, reads => reads
  | .refuse _,           _, reads => reads
  | .ask q next,         d, reads => readSet history (next (history q)) d reads
  | .get s k next,       d, reads => readSet history (next ((d s).lookup k)) d (reads.see s k)
  | .items s next,       d, reads => readSet history (next (d s)) d (reads.seeAll s)
  | .update s rows next, d, reads => readSet history next (d.update s rows) reads
  | .remove s keys next, d, reads => readSet history next (d.remove s keys) reads
  | .assign s rows next, d, reads => readSet history next (d.assign s rows) (reads.drop s)

-- `_checks`: a check of each record that was read and not written. A fence stands for the lease.
def checks (reads : ReadSet) (loaded : Loaded) (writes : Batch Section.Value) (fenced : Bool) :
    Batch Section.Value :=
  fun s => (reads s).elim ∅ fun r =>
    .build (if r.whole then (loaded.rows s).keys else r.seen) fun k =>
      if ((writes s).lookup k).isSome ∨ fenced ∧ (⟨s, k⟩ : (s : Section) × s.Key) = ⟨.scalar, .lease⟩ then
        none
      else
        some (.check (expected loaded s k))

-- `LeaseFence`, where the empty owner is any owner.
structure LeaseFence where
  owner : String
  epoch : Int
  nowMs : Int

-- `_lease_fence`.
def leaseFence (held : Held) (nowMs : Int) : LeaseFence :=
  match held with
  | .lease held  => ⟨held.owner, held.epoch, nowMs⟩
  | .epoch epoch => ⟨"", epoch, nowMs⟩

def LeaseFence.Admits (fence : LeaseFence) (recorded : Option Lease) : Prop :=
  ∃ live ∈ recorded, (fence.owner = "" ∨ live.owner = fence.owner) ∧ live.epoch = fence.epoch ∧
    fence.nowMs < live.expiresAt

instance (fence : LeaseFence) (recorded : Option Lease) : Decidable (fence.Admits recorded) :=
  inferInstanceAs (Decidable (∃ live, live ∈ recorded ∧ _))

inductive Refused
  | stale
  | conflict
  deriving DecidableEq

-- The lease record, as the script reads it.
def leaseOf (store : Store) : Option Lease :=
  (((store.rows .scalar).lookup Scalar.lease).map Record.value).getD none

-- `FENCED_BATCH`.
def fencedBatch (store : Store) (fence : Option LeaseFence) (batch : Batch Section.Value) :
    Except Refused Store :=
  if ¬∀ f ∈ fence, f.Admits (leaseOf store) then
    .error .stale
  else if store.Meets batch then
    .ok (store.apply batch)
  else
    .error .conflict

-- What becomes of the archive that a change leaves in the document: it is what the change added, or it is the
-- whole archive (`change_with_archive`), or that of a saved document which `replace` puts back and which may
-- have had its archive outside.
inductive Kind
  | plain
  | withArchive
  | replacement (external : Bool)
  deriving DecidableEq

-- A call of `write`.
structure FencedWrite (α : Type) where
  change : Change α
  kind   : Kind
  fence  : Option Held

namespace FencedWrite

variable {α : Type} (w : FencedWrite α)

-- `_record_archive` is called by the change.
def recorded : Bool :=
  match w.kind with
  | .replacement _ => true
  | _              => false

end FencedWrite

-- One attempt of `_write_records`: the sections it loaded, and the archive as it was when the change ran.
structure Attempt (α : Type) extends FencedWrite α where
  loaded  : Loaded
  archive : Finmap fun k => Record (Section.Value .archive k)

-- How an attempt of a write ends: its change raises, or returns without having written anything, or what it
-- wrote is refused or committed.
inductive Outcome (α S : Type)
  | raised (e : SwarmError)
  | returned (result : α)
  | refused (why : Refused)
  | committed (result : α) (next : S)

namespace Outcome

variable {α S T : Type}

def next : Outcome α S → Option S
  | committed _ next => some next
  | _                => none

def map (f : S → T) : Outcome α S → Outcome α T
  | raised e              => raised e
  | returned result       => returned result
  | refused why           => refused why
  | committed result next => committed result (f next)

theorem map_eq_committed {f : S → T} {o : Outcome α S} {result : α} {next : T} :
    o.map f = committed result next ↔ ∃ state, o = committed result state ∧ f state = next := by
  cases o <;> simp [map]

end Outcome

namespace Attempt

variable {α : Type} (t : Attempt α)

-- The per record layout has no reference to an external archive, and finds an archived row by itself.
def history : History
  | .referenced => false
  | .external   => .ok ∅
  | .archived k => .ok ((t.archive.lookup k).map Record.value)

-- The sections the writes are computed from.
def compared : Loaded :=
  if t.recorded then Function.update t.loaded .archive (some t.archive) else t.loaded

def writes (after : Document) : Batch Section.Value :=
  changes (assemble t.compared) after t.compared

def reads : ReadSet :=
  readSet t.history t.change (assemble t.loaded) .initial

def batch (after : Document) : Batch Section.Value :=
  fun s => t.writes after s ∪ checks t.reads t.compared (t.writes after) t.fence.isSome s

def start (write : FencedWrite α) (store : Store) : Attempt α :=
  ⟨write, sections store Section.isLoaded, store.rows .archive⟩

-- The change finds the archive of a store that has moved on since the load.
def hydrate (store : Store) : Attempt α :=
  { t with archive := store.rows .archive }

-- What comes of an attempt that reaches `store` at `nowMs`.
def commit (nowMs : Int) (store : Store) : Outcome α Store :=
  match t.change.exec t.history (assemble t.loaded) with
  | .error e             => .raised e
  | .ok (result, after) =>
    if ∀ s, t.writes after s = ∅ then
      .returned result
    else
      match fencedBatch store (t.fence.map (leaseFence · nowMs)) (t.batch after) with
      | .error why => .refused why
      | .ok store  => .committed result store

end Attempt
end Fencing
