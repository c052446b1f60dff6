import Mathlib.Data.String.Basic
import Agentihooks.Library.Run
import Agentihooks.Library.KeyTable

-- The external archive of a document: chunks under the digests of their texts, of which each one names its parent.
-- Writers save their chunks one by one and commit the document at last, if nobody else did; readers follow the parents
-- one by one. The key of a chunk within its bucket is its digest here, as the swarm is one and the same.

namespace ArchiveChunks

-- Python dictionaries, whose order nothing depends on but which rows share a chunk.
abbrev Rows (ρ : Type) :=
  KeyTable String ρ

structure Content (ρ : Type) where
  rows    : Rows ρ
  removed : List String
  deriving DecidableEq

-- The text of a chunk. The empty reference is `none`.
structure Chunk (δ ρ : Type) extends Content ρ where
  parent : Option δ
  deriving DecidableEq

abbrev Chunks (δ ρ : Type) :=
  KeyTable δ (Chunk δ ρ)

inductive Failure
  | unavailable
  deriving DecidableEq

section Chains

variable {δ ρ : Type} [DecidableEq δ] [DecidableEq ρ]

-- The rows of a chunk that no newer one has or removed.
def unseen (seen : List String) (rows : Rows ρ) (chunk : Chunk δ ρ) : Rows ρ :=
  chunk.rows.toList.foldl (fun rows x => if x.1 ∈ seen then rows else rows.insert x.1 x.2) rows

-- The loop of `_archive_rows`, which never ends where there is no result.
def follow (chunks : Chunks δ ρ) : ℕ → Option δ → List String → Rows ρ → Option (Except Failure (Rows ρ))
  | 0,        _,              _,    _    => none
  | _ + 1,    none,           _,    rows => some (.ok rows)
  | fuel + 1, some reference, seen, rows =>
    match chunks.lookup reference with
    | none       => some (.error .unavailable)
    | some chunk =>
      follow chunks fuel chunk.parent (seen ++ chunk.rows.keys ++ chunk.removed) (unseen seen rows chunk)

def archiveRows (chunks : Chunks δ ρ) (reference : Option δ) : Option (Except Failure (Rows ρ)) :=
  follow chunks (chunks.keys.length + 1) reference [] ∅

-- `_save_archive_chunk`, which raises if the digest is that of another text.
def saveChunk (sha256 : Chunk δ ρ → δ) (chunks : Chunks δ ρ) (chunk : Chunk δ ρ) : Option (Chunks δ ρ) :=
  match chunks.lookup (sha256 chunk) with
  | none       => some (chunks.insert (sha256 chunk) chunk)
  | some found => if found = chunk then some chunks else none

-- The batches of `_externalize_archive`.
def batches (changed : List String) : List (List String) :=
  (List.range ((changed.length + 63) / 64)).map fun i => (changed.drop (64 * i)).take 64

def batch (archive : Rows ρ) (keys : List String) : Content ρ :=
  ⟨.ofList (keys.filterMap fun key => (archive.lookup key).map fun row => (key, row)), []⟩

-- What `_externalize_archive` saves, in its order.
def contents (previous archive : Rows ρ) : List (Content ρ) :=
  let changed := archive.keys.filter fun key => previous.lookup key ≠ archive.lookup key
  let removed := (previous.keys.filter fun key => key ∉ archive).mergeSort fun x y => decide (x ≤ y)
  (if removed = [] then [] else [⟨∅, removed⟩]) ++ (batches changed).map (batch archive)

end Chains

-- The archive of a document: `archive_ref` if it has one, and what is inline.
structure Doc (δ ρ : Type) where
  reference : Option (Option δ)
  inline    : Rows ρ
  revision  : ℕ

-- A plain change knows what is inline and what is outside and leaves something inline; `change_with_archive` and a
-- batch with archived rows change the whole archive; `replace` puts an archive back, outside if the saved document had
-- it there.
inductive Change (ρ : Type)
  | plain (f : Rows ρ → Rows ρ → Rows ρ)
  | whole (f : Rows ρ → Rows ρ)
  | migrate
  | replacement (archive : Rows ρ) (external : Bool)

-- The archive that a change leaves, of what it found inline and outside.
def Change.leaves {ρ : Type} (inline external : Rows ρ) : Change ρ → Rows ρ
  | plain f               => f inline external ∪ external
  | whole f               => f (inline ∪ external)
  | migrate               => inline ∪ external
  | replacement archive _ => archive

-- What a writer is about to store: the chunks that remain to be saved on a reference, and the document after them.
structure Plan (δ ρ : Type) where
  reference : Option (Option δ)
  remaining : List (Content ρ)
  inline    : Rows ρ
  archive   : Rows ρ

structure Writer (δ ρ : Type) where
  doc    : Doc δ ρ
  change : Change ρ
  plan   : Option (Plan δ ρ)

-- A reader on its way, and the archive there was when it looked at the document.
structure Reader (δ ρ : Type) where
  reference : Option δ
  seen      : List String
  rows      : Rows ρ
  left      : Rows ρ

-- `left` is the archive that the last committed change left.
structure System (δ ρ : Type) where
  chunks  : Chunks δ ρ
  doc     : Doc δ ρ
  left    : Rows ρ
  writers : ℕ → Option (Writer δ ρ)
  readers : ℕ → Option (Reader δ ρ)

inductive Event (ρ : Type)
  | load (writer : ℕ) (change : Change ρ)
  | run (writer : ℕ)
  | save (writer : ℕ)
  | commit (writer : ℕ)
  | look (reader : ℕ)
  | follow (reader : ℕ)

section Steps

variable {δ ρ : Type} [DecidableEq δ] [DecidableEq ρ] (sha256 : Chunk δ ρ → δ)

-- The document stays as it is without a reference, and has nothing inline with one.
def externalize (reference : Option (Option δ)) (previous archive : Rows ρ) : Plan δ ρ :=
  match reference with
  | none           => ⟨none, [], archive, archive⟩
  | some reference => ⟨some reference, contents previous archive, ∅, archive⟩

-- What a change comes to on a document with these rows outside.
def planned (doc : Doc δ ρ) (external : Rows ρ) (change : Change ρ) : Plan δ ρ :=
  let archive := change.leaves doc.inline external
  match change with
  | .plain f =>
    if f doc.inline external ≠ ∅ then
      match doc.reference with
      | none   => ⟨none, [], f doc.inline external, archive⟩
      | some _ => externalize doc.reference external archive
    else ⟨doc.reference, [], ∅, archive⟩
  | .whole _                => externalize doc.reference external archive
  | .migrate                => externalize (some doc.reference.join) external archive
  | .replacement _ outside  => externalize (if outside then some none else none) ∅ archive

namespace System

def start (inline : Rows ρ) : System δ ρ :=
  ⟨∅, ⟨none, inline, 0⟩, inline, fun _ => none, fun _ => none⟩

def write (s : System δ ρ) (writer : ℕ) (w : Option (Writer δ ρ)) : System δ ρ :=
  { s with writers := Function.update s.writers writer w }

def read (s : System δ ρ) (reader : ℕ) (r : Option (Reader δ ρ)) : System δ ρ :=
  { s with readers := Function.update s.readers reader r }

def step (s : System δ ρ) : Event ρ → System δ ρ
  | .load writer change => s.write writer (some ⟨s.doc, change, none⟩)
  | .run writer =>
    match s.writers writer with
    | some ⟨doc, change, none⟩ =>
      match archiveRows s.chunks doc.reference.join with
      | none                => s
      | some (.error _)     => s.write writer none
      | some (.ok external) => s.write writer (some ⟨doc, change, some (planned doc external change)⟩)
    | _ => s
  | .save writer =>
    match s.writers writer with
    | some ⟨doc, change, some ⟨reference, content :: remaining, inline, archive⟩⟩ =>
      let chunk := ⟨content, reference.join⟩
      match saveChunk sha256 s.chunks chunk with
      | none        => s.write writer none
      | some chunks => { s with chunks := chunks }.write writer
        (some ⟨doc, change, some ⟨some (some (sha256 chunk)), remaining, inline, archive⟩⟩)
    | _ => s
  | .commit writer =>
    match s.writers writer with
    | some ⟨doc, _, some ⟨reference, [], inline, archive⟩⟩ =>
      if doc.revision = s.doc.revision then
        { s with doc := ⟨reference, inline, s.doc.revision + 1⟩, left := archive }.write writer none
      else s.write writer none
    | _ => s
  | .look reader =>
    match s.doc.reference with
    | none           => s
    | some reference => s.read reader (some ⟨reference, [], ∅, s.left⟩)
  | .follow reader =>
    match s.readers reader with
    | some ⟨some reference, seen, rows, left⟩ =>
      match s.chunks.lookup reference with
      | none       => s.read reader none
      | some chunk => s.read reader
        (some ⟨chunk.parent, seen ++ chunk.rows.keys ++ chunk.removed, unseen seen rows chunk, left⟩)
    | _ => s

def run (inline : Rows ρ) (es : List (Event ρ)) : System δ ρ :=
  Run.run (step sha256) (start inline) es

end System
end Steps
end ArchiveChunks
