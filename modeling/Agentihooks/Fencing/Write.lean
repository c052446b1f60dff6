import Agentihooks.Fencing.Records
import Agentihooks.Library.Run

-- The document layout: the whole document under one revision, its archived rows either inline or in a chain
-- of chunks outside, of which the document holds the last one.

namespace Fencing

open Program

-- An archive reference, by what it refers to: a chunk is stored under the digest of its text, which has the
-- reference of its parent in it. `root` is the empty reference.
inductive Archive
  | root
  | chunk (parent : Archive) (rows : Dict String AgentRecord) (removed : Finset String)
  deriving DecidableEq

namespace Archive

-- `_archive_rows`.
def rows : Archive → Dict String AgentRecord
  | root                      => ∅
  | chunk parent rows removed => rows ∪ parent.rows.restrict (· ∉ removed)

-- The rows the chain does not have as they are in `archive`.
def changed (reference : Archive) (archive : Dict String AgentRecord) : Finset String :=
  archive.keys.filter fun key => reference.rows.lookup key ≠ archive.lookup key

-- The keys of one chunk, 64 of them at a time.
def batch (keys : Finset String) (i : ℕ) : Finset String :=
  keys.filter fun key => (keys.filter (· < key)).card / 64 = i

def save (archive : Dict String AgentRecord) (keys : Finset String) (reference : Archive) (i : ℕ) : Archive :=
  .chunk reference (archive.restrict (· ∈ batch keys i)) ∅

-- `_externalize_archive` of a document with a reference.
def externalize (reference : Archive) (archive : Dict String AgentRecord) : Archive :=
  let changed := reference.changed archive
  let removed := reference.rows.keys \ archive.keys
  let reference := if removed = ∅ then reference else .chunk reference ∅ removed
  (List.range ((changed.card + 63) / 64)).foldl (save archive changed) reference

end Archive

-- A stored document. `reference` is its `archive_ref`, if it has one, and `moved` says that it is marked
-- `moved_to` and its records live under keys of their own.
structure Entry where
  document  : Document
  reference : Option Archive
  moved     : Bool
  revision  : ℕ

namespace Entry

-- `_decode`: a scalar that is absent has its value in `EMPTY`.
def decode (entry : Entry) : Document
  | .scalar => entry.document .scalar ∪ defaults
  | s       => entry.document s

def external (entry : Entry) : Dict String AgentRecord :=
  entry.reference.elim ∅ Archive.rows

def history (entry : Entry) : History
  | .referenced => entry.reference.isSome
  | .external   => .ok entry.external
  | .archived k => .ok (entry.external.lookup k)

-- The reference that the archive of a write is compared with. A replacement starts a chain of its own if
-- the document it puts back had one.
def compared (entry : Entry) : Kind → Option Archive
  | .replacement external => if external then some .root else none
  | _                     => entry.reference

-- What `write` stores of the document a change leaves. An archive that is outside stays there: what a plain
-- write has inline is added to it, and any other write had the whole of it.
def settle (entry : Entry) (kind : Kind) (after : Document) : Entry :=
  match entry.compared kind with
  | none           => { entry with document := after, reference := none }
  | some reference =>
    if kind ≠ .plain then
      { entry with document := after.assign .archive ∅, reference := reference.externalize (after .archive) }
    else if after .archive = ∅ then
      { entry with document := after }
    else
      { entry with
        document  := after.assign .archive ∅
        reference := reference.externalize (after .archive ∪ reference.rows) }

end Entry

-- One attempt of `write` on a document.
structure DocumentAttempt (α : Type) extends FencedWrite α where
  entry : Entry

namespace DocumentAttempt

variable {α : Type} (t : DocumentAttempt α)

def before : Entry :=
  { t.entry with document := t.entry.decode }

-- What comes of an attempt that reaches the document at `found`.
def commit (found : Entry) : Outcome α Entry :=
  match t.change.exec t.entry.history t.before.document with
  | .error e             => .raised e
  | .ok (result, after)  =>
    let entry := t.before.settle t.kind after
    if (∀ s, entry.document s = t.before.document s) ∧ entry.reference = t.before.reference then
      .returned result
    else if found.revision = t.entry.revision then
      .committed result { entry with revision := found.revision + 1 }
    else
      .refused .conflict

end DocumentAttempt
end Fencing

-- Any number of writers of one swarm, each on its own attempt. The load, the reads of the archive and the
-- commit of an attempt are separate steps; a writer that is refused loads again.

namespace Fencing

variable {α : Type}

-- A write that was committed, with what it returned.
structure Committed (α : Type) where
  write  : FencedWrite α
  nowMs  : Int
  result : α

-- `log` is the writes in the order of their commits.
structure Writers (α : Type) where
  store    : Store
  attempts : ℕ → Option (Attempt α)
  log      : List (Committed α)

namespace Writers

inductive Event (α : Type)
  | load (writer : ℕ) (write : FencedWrite α)
  | run (writer : ℕ)
  | commit (writer : ℕ) (nowMs : Int)

def start (store : Store) : Writers α :=
  ⟨store, fun _ => none, []⟩

def leave (w : Writers α) (writer : ℕ) (attempt : Option (Attempt α)) : Writers α :=
  { w with attempts := Function.update w.attempts writer attempt }

def step (w : Writers α) : Event α → Writers α
  | .load writer write   => w.leave writer (some (.start write w.store))
  | .run writer          => w.leave writer ((w.attempts writer).map (·.hydrate w.store))
  | .commit writer nowMs =>
    match w.attempts writer with
    | none   => w
    | some t =>
      match t.commit nowMs w.store with
      | .committed result store =>
        { w.leave writer none with store := store, log := w.log ++ [⟨t.toFencedWrite, nowMs, result⟩] }
      | _ => w.leave writer none

def run (store : Store) (es : List (Event α)) : Writers α :=
  Run.run step (start store) es

end Writers

-- What comes of a write on a store that nobody else writes.
def alone (write : FencedWrite α) (nowMs : Int) (store : Store) : Outcome α Store :=
  (Attempt.start write store).commit nowMs store

-- The writes, one after the other and each by itself, return what they returned and lead to `after`.
def Serial : Store → List (Committed α) → Store → Prop
  | store, [],     after => after = store
  | store, c :: cs, after => ∃ next, alone c.write c.nowMs store = .committed c.result next ∧ Serial next cs after

end Fencing

-- `write` on a swarm: on its document, or on its records once the document is marked as moved.

namespace Fencing

open Program

structure Swarm where
  entry : Entry
  store : Store

inductive WriteAttempt (α : Type)
  | document (t : DocumentAttempt α)
  | records (t : Attempt α)

namespace Swarm

variable {α : Type}

def start (w : FencedWrite α) (swarm : Swarm) : WriteAttempt α :=
  if swarm.entry.moved then .records (.start w swarm.store) else .document ⟨w, swarm.entry⟩

def commit (t : WriteAttempt α) (nowMs : Int) (swarm : Swarm) : Outcome α Swarm :=
  match t with
  | .document t => (t.commit swarm.entry).map fun entry => { swarm with entry := entry }
  | .records t  => (t.commit nowMs swarm.store).map fun store => { swarm with store := store }

-- The document a write of the swarm starts from.
def document (swarm : Swarm) : Document :=
  if swarm.entry.moved then loadedDocument swarm.store else swarm.entry.decode

end Swarm

namespace WriteAttempt

variable {α : Type}

def write : WriteAttempt α → FencedWrite α
  | document t => t.toFencedWrite
  | records t  => t.toFencedWrite

-- The document the change starts from, and what it is told of the archive.
def loaded : WriteAttempt α → Document
  | document t => t.entry.decode
  | records t  => assemble t.loaded

def history : WriteAttempt α → History
  | document t => t.entry.history
  | records t  => t.history

-- On the records, the change finds the archive of a store that has moved on since the load.
def hydrate (store : Store) : WriteAttempt α → WriteAttempt α
  | document t => .document t
  | records t  => .records (t.hydrate store)

end WriteAttempt
end Fencing

-- The records port over a document that is whole, and the move of such a document onto keys for each record.

namespace Fencing

open Program Versioned

namespace Entry

-- `hydrate_archive`: what is inline goes before what is outside.
def hydrated (entry : Entry) : Document :=
  entry.decode.assign .archive (entry.decode .archive ∪ entry.external)

-- `_view`, by which every record of the document is at its revision.
def view (d : Document) : Document
  | .byName => heads (d .executions)
  | s       => d s

-- `_admit`, past the lease.
def Meets (entry : Entry) (d : Document) (batch : Batch Section.Value) : Prop :=
  ∀ s, ¬(batch s).Exists fun k w =>
    ∃ n ∈ w.expected, n ≠ if k ∈ (view d s).keys then entry.revision else 0

instance (entry : Entry) (d : Document) (batch : Batch Section.Value) : Decidable (entry.Meets d batch) :=
  inferInstanceAs (Decidable (∀ s, ¬(batch s).Exists _))

-- `_apply` of every write: the index of names is derived.
def applied (d : Document) (batch : Batch Section.Value) : Document :=
  fun s => if s = .byName then d s else
    .build ((d s).keys ∪ (batch s).keys) fun k => (Write.effect ((batch s).lookup k)).getD ((d s).lookup k)

-- `WholeDocumentRecords.fenced_batch`, whose documents have no index of archived names.
def fencedBatch (entry : Entry) (fence : Option LeaseFence) (batch : Batch Section.Value) : Outcome Unit Entry :=
  let archived := batch .archive ≠ ∅
  let d := if archived then entry.hydrated else entry.decode
  if ¬∀ f ∈ fence, f.Admits d.lease then .refused .stale
  else if ¬entry.Meets d batch then .refused .conflict
  else if batch .archivedNames ≠ ∅ then .raised "archived-names"
  else
    let after := applied d batch
    let next := if archived then entry.settle .withArchive after else { entry with document := after }
    .committed () { next with revision := entry.revision + 1 }

-- The sections of the records, of which none is there yet; the move does not look at the archived names.
def unwritten : Loaded :=
  fun s => if s = .archivedNames then none else some ∅

-- What `migrate_records` writes beside the document itself.
def marks : Batch Section.Value
  | .archivedNames => .singleton "" (.put (some 0) "")
  | .scalar        => .singleton Scalar.layout (.put (some 0) "records")
  | _              => ∅

-- The plan of `migrate_records`.
def migration (entry : Entry) : Batch Section.Value :=
  fun s => marks s ∪ changes (fun | .scalar => defaults | _ => ∅) entry.hydrated unwritten s

end Entry

-- `port.layout(slug)`.
def layout (store : Store) : String :=
  (((store.rows .scalar).lookup Scalar.layout).map Record.value).getD ""

-- `migrate_records`, on a swarm that is not on its records yet: Redis stores the document of the transaction even
-- when it refuses the batch.
def Swarm.migrate (swarm : Swarm) (revision : ℕ) : Swarm where
  entry := { swarm.entry with moved := true, revision := revision }
  store := match fencedBatch swarm.store none swarm.entry.migration with
    | .error _   => swarm.store
    | .ok store  => store

end Fencing
