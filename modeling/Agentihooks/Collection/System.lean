import Mathlib.Data.Int.Order.Basic
import Agentihooks.Collection.Objects

-- The processes over one catalog and one object store.

namespace Collection

open Ingest (Scope)

inductive CommitStage
  | release
  | verify
  | archive
  | done (inserted : Bool)
  | refused (error : Refusal)
  | dead
  deriving DecidableEq

structure Commit where
  corpus   : String
  uploadId : String
  entry    : ArchiveEntry
  stage    : CommitStage
  deriving DecidableEq

-- What a collection has read before it goes through the names.
structure Found where
  files  : Finset String
  pinned : Finset String

inductive UploadStage
  | check
  | claim
  | recheck
  | unlink
  | drop (rebound : Bool)
  deriving DecidableEq

inductive CollectStage
  | walk
  | archived (files : Finset String)
  | reserved (files archived : Finset String)
  | references (files archived reserved : Finset String)
  | names (found : Found) (rest : List String)
  | upload (found : Found) (name : String) (size : ℕ) (stage : UploadStage) (rest : List String)
  | done
  | dead

structure Collect where
  plan   : Plan
  report : Report
  stage  : CollectStage

inductive Process
  | commit (p : Commit)
  | collect (p : Collect)

structure State where
  files     : Dict String Bytes
  catalog   : Catalog
  processes : Dict ℕ Process

def init : State :=
  ⟨∅, .empty, ∅⟩

-- What a process reads outside of the catalog and the objects: the names that a walk of the store finds, and the
-- digests that the checkpoints refer to at this moment.
structure Answer where
  walked     : Finset String
  references : Finset String

inductive Event
  | put (data : Bytes)
  | register (scope : Scope)
  | reserve (corpus uploadId digest attempt : String) (expiresAt : ℤ)
  | commit (id : ℕ) (corpus uploadId : String) (entry : ArchiveEntry)
  | collect (id : ℕ) (plan : Plan)
  | turn (id : ℕ) (answer : Answer)
  | crash (id : ℕ)

section Turn

variable (sha256 : Bytes → String)

def verified (files : Dict String Bytes) (entry : ArchiveEntry) : Except Refusal Bytes :=
  if ¬isDigest entry.objectDigest then .error .badName
  else match files.lookup entry.objectDigest with
    | none      => .error .missing
    | some data =>
      if sha256 data ≠ entry.objectDigest then .error .altered
      else if (data.length : ℤ) ≠ entry.byteEnd - entry.byteStart then .error .altered
      else .ok data

namespace Commit

variable (p : Commit)

def refuse (error : Refusal) : Commit :=
  { p with stage := .refused error }

def turn (files : Dict String Bytes) (c : Catalog) : Commit × Catalog :=
  match p.stage with
  | .release => match c.release p.corpus p.uploadId p.entry with
    | .error error => (p.refuse error, c)
    | .ok c        => ({ p with stage := .verify }, c)
  | .verify  => match verified sha256 files p.entry with
    | .error error => (p.refuse error, c)
    | .ok _        => ({ p with stage := .archive }, c)
  | .archive => match c.archive p.entry with
    | .error error       => (p.refuse error, c)
    | .ok (inserted, c)  => ({ p with stage := .done inserted }, c)
  | _        => (p, c)

end Commit

namespace Collect

variable (p : Collect)

def goto (stage : CollectStage) : Collect :=
  { p with stage := stage }

def keep (found : Found) (reason : Reason) (name : String) (rest : List String) : Collect :=
  { p with report := p.report.keep reason name, stage := .names found rest }

def reclaim (found : Found) (name : String) (size : ℕ) (rest : List String) : Collect :=
  { p with report := p.report.reclaim name size, stage := .names found rest }

-- The next name that `_uploads` comes to.
def next (c : Catalog) (found : Found) (name : String) (rest : List String) : Collect × Catalog :=
  if name ∈ found.pinned then
    if p.plan.destructive ∧ c.collecting name then
      (p.keep found (if name ∈ found.files then .rebound else .missing) name rest, c.settle name)
    else (p.keep found .authoritative name rest, c)
  else match c.owner p.plan name with
    | some reason => (p.keep found reason name rest, c)
    | none        => (p.goto (.upload found name 0 .check rest), c)

-- The object's size and its bytes; a walked file may be gone by now.
def check (files : Dict String Bytes) (found : Found) (name : String) (rest : List String) : Collect :=
  let claims (size : ℕ) := if p.plan.destructive then p.goto (.upload found name size .claim rest)
    else p.reclaim found name size rest
  if name ∉ found.files then claims 0
  else match files.lookup name with
    | none      => p.goto .dead
    | some data => if sha256 data ≠ name then p.keep found .altered name rest else claims data.length

def upload (files : Dict String Bytes) (c : Catalog) (references : Finset String) (found : Found) (name : String)
    (size : ℕ) (rest : List String) : UploadStage → Collect × Dict String Bytes × Catalog
  | .check        => (p.check sha256 files found name rest, files, c)
  | .claim        => match c.claim p.plan references name with
    | (some reason, c) => (p.keep found reason name rest, files, c)
    | (none, c)        => (p.goto (.upload found name size .recheck rest), files, c)
  | .recheck      =>
    let stage : UploadStage := if c.referenced references name then .drop true
      else if name ∈ found.files then .unlink else .drop false
    (p.goto (.upload found name size stage rest), files, c)
  | .unlink       =>
    if (files.lookup name).isSome then (p.goto (.upload found name size (.drop false) rest), files.erase name, c)
    else (p.goto .dead, files, c)
  | .drop rebound =>
    (if rebound then p.keep found .rebound name rest else p.reclaim found name size rest, files, c.dropDigest name)

def turn (answer : Answer) (files : Dict String Bytes) (c : Catalog) : Collect × Dict String Bytes × Catalog :=
  match p.stage with
  | .walk                                => (p.goto (.archived answer.walked), files, c)
  | .archived walked                     => (p.goto (.reserved walked c.allArchived), files, c)
  | .reserved walked archived            =>
    (p.goto (.references walked archived (c.reservedDigests p.plan.corpus)), files, c)
  | .references walked archived reserved =>
    (p.goto (.names ⟨walked, archived ∪ answer.references⟩ (walked ∪ reserved).sort), files, c)
  | .names _ []                          => (p.goto .done, files, c)
  | .names found (name :: rest)          =>
    let (p, c) := p.next c found name rest
    (p, files, c)
  | .upload found name size stage rest   => p.upload sha256 files c answer.references found name size rest stage
  | .done | .dead                        => (p, files, c)

end Collect

def Process.crash : Process → Process
  | .commit p  => .commit { p with stage := .dead }
  | .collect p => .collect { p with stage := .dead }

def State.start (s : State) (id : ℕ) (p : Process) : State :=
  if id ∈ s.processes.keys then s else { s with processes := s.processes.insert id p }

def step (s : State) : Event → State
  | .put data                                         =>
    if isDigest (sha256 data) then { s with files := s.files.insert (sha256 data) data } else s
  | .register scope                                   => { s with catalog := s.catalog.register scope }
  | .reserve corpus uploadId digest attempt expiresAt =>
    match s.catalog.reserve corpus uploadId digest attempt expiresAt with
    | .error _ => s
    | .ok c    => { s with catalog := c }
  | .commit id corpus uploadId entry                  => s.start id (.commit ⟨corpus, uploadId, entry, .release⟩)
  | .collect id plan                                  => s.start id (.collect ⟨plan, .empty, .walk⟩)
  | .turn id answer                                   =>
    match s.processes.lookup id with
    | none              => s
    | some (.commit p)  =>
      let (p, c) := p.turn sha256 s.files s.catalog
      ⟨s.files, c, s.processes.insert id (.commit p)⟩
    | some (.collect p) =>
      let (p, files, c) := p.turn sha256 answer s.files s.catalog
      ⟨files, c, s.processes.insert id (.collect p)⟩
  | .crash id                                         =>
    match s.processes.lookup id with
    | none   => s
    | some p => { s with processes := s.processes.insert id p.crash }

end Turn

end Collection

-- The bytes of a source are read back from the objects that its manifest lists.

namespace Collection

open Ingest (Scope)

namespace Catalog

variable (c : Catalog) (scope : Scope)

def starts : Finset ℤ :=
  (c.manifest.keys.filter (·.1 = scope)).image Prod.snd

-- `manifest`
def entries : List ArchiveEntry :=
  ((c.starts scope).sort (· ≤ ·)).filterMap fun start =>
    (c.manifest.lookup (scope, start)).map fun row => ⟨scope, start, row.1, row.2⟩

-- A call of `archive`, which leaves the catalog as it is where it raises.
def archiveCall (entry : ArchiveEntry) : Catalog :=
  match c.archive entry with
  | .ok (_, after) => after
  | .error _       => c

end Catalog

inductive RangeError
  | forbidden
  | unavailable
  | badRange
  | uncovered
  | object (error : Refusal)
  deriving DecidableEq

structure Grant where
  corpus   : String
  projects : Finset String

-- What the catalog has of a session: its state and the projects of its events.
structure SessionRow where
  state    : String
  projects : List (Option String)

section Read

variable (sha256 : Bytes → String) (files : Dict String Bytes)

-- `data[start:stop]`, where neither is negative.
def cut (data : Bytes) (start stop : ℤ) : Bytes :=
  (data.take stop.toNat).drop start.toNat

-- The loop of `_slice` from a cursor on.
def sliceFrom (stop : ℤ) : ℤ → List ArchiveEntry → Except RangeError Bytes
  | cursor, []            => if cursor < stop then .error .uncovered else .ok []
  | cursor, entry :: rest =>
    if stop ≤ cursor then .ok []
    else if entry.byteEnd ≤ cursor then sliceFrom stop cursor rest
    else if cursor < entry.byteStart then .error .uncovered
    else do
      let upTo := min stop entry.byteEnd
      let data ← (verified sha256 files entry).mapError .object
      let more ← sliceFrom stop upTo rest
      .ok (cut data (cursor - entry.byteStart) (upTo - entry.byteStart) ++ more)

def slice (entries : List ArchiveEntry) (start stop : ℤ) : Except RangeError Bytes :=
  if ¬ (0 ≤ start ∧ start ≤ stop) then .error .badRange else sliceFrom sha256 files stop start entries

-- `_readable`
def readable (grant : Grant) (domain : String) (session : Option SessionRow) : Except RangeError Unit :=
  if domain ≠ grant.corpus then .error .forbidden
  else match session with
    | none       => .error .unavailable
    | some found =>
      if found.state ≠ "retained" ∨ ∃ p ∈ found.projects, p ≠ none ∧ p ∉ grant.projects.image some then
        .error .unavailable
      else .ok ()

def sourceRange (c : Catalog) (grant : Grant) (session : Option SessionRow) (scope : Scope) (start stop : ℤ) :
    Except RangeError Bytes := do
  readable grant scope.accessDomain session
  slice sha256 files (c.entries scope) start stop

end Read

end Collection
