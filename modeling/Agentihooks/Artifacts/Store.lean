import Agentihooks.Library.Finmap
import Agentihooks.Objects.Rows
import Agentihooks.Library.Interleaved

-- What the artifact store of one task keeps: objects under the digest of their content, a record for each artifact
-- that names its object, manifests by name and generation, and what is being published in the staging area of an
-- execution.

namespace Artifacts

structure Ref where
  sha256 : String
  size   : ℕ
  deriving DecidableEq

structure Record where
  ref        : Ref
  execution  : String
  generation : ℤ
  deriving DecidableEq

structure Manifest where
  artifacts  : Dict String Ref
  execution  : String
  generation : ℤ
  name       : String
  deriving DecidableEq

-- The bytes of a value: the text of a record, of a manifest, or anything else.
inductive Blob
  | record   (r : Record)
  | manifest (m : Manifest)
  | other    (bytes : List UInt8)
  deriving DecidableEq

inductive Key
  | object   (sha256 : String)
  | record   (artifact : String)
  | manifest (name : String) (generation : ℤ)
  | staging  (execution : String) (sha256 : String)
  deriving DecidableEq

abbrev Contents :=
  Dict Key Blob

-- A folder that is listed.
inductive Folder
  | artifacts
  | manifests
  | manifest (name : String)

def Folder.Holds : Folder → Key → Prop
  | .artifacts,     .record _      => True
  | .manifests,     .manifest _ _  => True
  | .manifest name, .manifest n _  => n = name
  | _,              _              => False

instance {folder : Folder} {key : Key} : Decidable (folder.Holds key) := by
  unfold Folder.Holds
  split <;> infer_instance

-- `of` is `ArtifactRef.of`. `mixed` is the digest of pieces that were read from values which are not all the same.
structure Hashing where
  of    : Blob → Ref
  mixed : List Blob → String

def Hashing.digest (hash : Hashing) : List Blob → String
  | []      => (hash.of (.other [])).sha256
  | b :: bs => if bs.all (· = b) then (hash.of b).sha256 else hash.mixed (b :: bs)

def chunk : ℕ :=
  2 ^ 20

def Ref.chunks (ref : Ref) : ℕ :=
  (ref.size + chunk - 1) / chunk

-- An attempt at the task.
structure Scope where
  execution  : String
  generation : ℤ

-- `IDENTIFIER`
def identifier (text : String) : Bool :=
  match text.toList with
  | []      => false
  | c :: cs => c.isAlphanum && cs.length ≤ 127 && cs.all fun c => c.isAlphanum || c ∈ ['.', '_', '@', '-']

end Artifacts

-- The artifact store over a backend whose single commands are atomic: every call is a program of such commands.

namespace Artifacts

open Interleaved (Steps)

inductive Command
  | write  (key : Key) (data : Blob)
  | size   (key : Key)
  | read   (key : Key)
  | move   (source target : Key)
  | remove (key : Key)
  | keys   (folder : Folder)

-- A read gives the value that the piece is from. A read or a move without its key raises.
abbrev Reply : Command → Type
  | .write ..  => Unit
  | .size _    => Option ℕ
  | .read _    => Option Blob
  | .move ..   => Bool
  | .remove _  => Unit
  | .keys _    => List Key

-- The environment chooses the order of a listing.
def exec (hash : Hashing) : (command : Command) → List Key → Contents → Option (Contents × Reply command)
  | .write key data,     _,      st => some (st.insert key data, ())
  | .size key,           _,      st => some (st, (st.lookup key).map fun data => (hash.of data).size)
  | .read key,           _,      st => some (st, st.lookup key)
  | .move source target, _,      st =>
    match st.lookup source with
    | some data => some ((st.erase source).insert target data, true)
    | none      => some (st, false)
  | .remove key,         _,      st => some (st.erase key, ())
  | .keys folder,        listed, st =>
    if listed.Nodup ∧ listed.toFinset = st.keys.filter folder.Holds then some (st, listed) else none

section Commands

def write (key : Key) (data : Blob) : Steps Reply Unit :=
  Steps.perform (Command.write key data)

def size (key : Key) : Steps Reply (Option ℕ) :=
  Steps.perform (Command.size key)

def read (key : Key) : Steps Reply Blob :=
  .ask (Command.read key) fun data => data.elim .fail .done

def move (source target : Key) : Steps Reply Unit :=
  .ask (Command.move source target) fun moved => Steps.ensure (moved = true)

def remove (key : Key) : Steps Reply Unit :=
  Steps.perform (Command.remove key)

def keys (folder : Folder) : Steps Reply (List Key) :=
  Steps.perform (Command.keys folder)

end Commands

section Store

variable (hash : Hashing)

-- `_matches`
def matching (key : Key) (ref : Ref) : Steps Reply Bool := do
  let found ← size key
  if found ≠ some ref.size then
    return false
  let pieces ← Steps.each read (List.replicate ref.chunks key)
  return hash.digest pieces = ref.sha256

-- `_document`: what is longer than the size it had is not read to its end, and the rest does not parse.
def document (key : Key) : Steps Reply (Option Blob) := do
  match ← size key with
  | none      => return none
  | some long => do
    let data ← read key
    Steps.ensure ((hash.of data).size ≤ long)
    return some data

def recorded (artifact : String) : Steps Reply (Option Ref) := do
  Steps.ensure (identifier artifact = true)
  match ← document hash (.record artifact) with
  | none             => return none
  | some (.record r) => return some r.ref
  | some _           => .fail

inductive Status
  | absent
  | corrupt
  | verified
  deriving DecidableEq

def stat (ref : Ref) : Steps Reply Status := do
  match ← size (.object ref.sha256) with
  | none   => return .absent
  | some _ => do
    let sound ← matching hash (.object ref.sha256) ref
    return if sound then .verified else .corrupt

-- `_confirm`
def confirm (key : Key) (ref : Ref) : Steps Reply Unit := do
  let sound ← matching hash key ref
  if sound then
    return ()
  remove key
  .fail

-- `_publish`
def publish (scope : Scope) (key : Key) (data : Blob) : Steps Reply Unit := do
  let ref := hash.of data
  let staging := Key.staging scope.execution ref.sha256
  let attempt : Steps Reply Unit := do
    write staging data
    confirm hash staging ref
    move staging key
  attempt.followedBy (remove staging)
  confirm hash key ref

def put (scope : Scope) (artifact : String) (data : Blob) : Steps Reply Ref := do
  let ref := hash.of data
  let found ← recorded hash artifact
  Steps.ensure (found = none ∨ found = some ref)
  let status ← stat hash ref
  if status ≠ .verified then
    publish hash scope (.object ref.sha256) data
  if found = none then
    publish hash scope (.record artifact) (.record ⟨ref, scope.execution, scope.generation⟩)
  return ref

-- The reference of an artifact that is committed and verified.
def committed (artifact : String) : Steps Reply (String × Ref) := do
  match ← recorded hash artifact with
  | none     => .fail
  | some ref => do
    let status ← stat hash ref
    Steps.ensure (status = .verified)
    return (artifact, ref)

def Key.generation? : Key → Option ℤ
  | .manifest _ generation => some generation
  | _                      => none

-- `_generations`
def generations (name : String) : Steps Reply (List ℤ) := do
  let found ← keys (.manifest name)
  return found.filterMap Key.generation?

-- `commit_manifest`, whose artifacts are sorted and without repetitions.
def commitManifest (scope : Scope) (name : String) (artifacts : List String) : Steps Reply Manifest := do
  Steps.ensure (identifier name = true)
  let found ← Steps.each (committed hash) artifacts
  let newer ← generations name
  Steps.ensure (∀ generation ∈ newer, generation ≤ scope.generation)
  let manifest : Manifest :=
    ⟨found.foldl (fun listed item => listed.insert item.1 item.2) ∅, scope.execution, scope.generation, name⟩
  let key := Key.manifest name scope.generation
  match ← document hash key with
  | none          => publish hash scope key (.manifest manifest)
  | some existing => Steps.ensure (existing = .manifest manifest)
  return manifest

def listing (key : Key) : Steps Reply Manifest := do
  match ← document hash key with
  | some (.manifest m) => return m
  | _                  => .fail

def Manifest.Lists (m : Manifest) (ref : Ref) : Prop :=
  ∃ artifact ∈ m.artifacts.keys, m.artifacts.lookup artifact = some ref

instance {m : Manifest} {ref : Ref} : Decidable (m.Lists ref) :=
  inferInstanceAs (Decidable (∃ artifact ∈ m.artifacts.keys, _))

-- Whether one of the manifests lists the reference; the first one that does ends the search.
def listed (ref : Ref) : List Key → Steps Reply Bool
  | []          => pure false
  | key :: keys => do
    let m ← listing hash key
    if m.Lists ref then
      return true
    listed ref keys

def keyed (key : Key) : Steps Reply (Key × Option Blob) := do
  let data ← document hash key
  return (key, data)

-- A record that has gone meanwhile raises.
def references : List (Key × Option Blob) → Steps Reply (List (Key × Record))
  | []                              => pure []
  | (key, some (.record r)) :: rest => do
    let found ← references rest
    return (key, r) :: found
  | _ :: _                          => .fail

-- `delete_if_unreferenced`
def deleteIfUnreferenced (scope : Scope) (ref : Ref) : Steps Reply Bool := do
  let manifests ← keys .manifests
  if ← listed hash ref manifests then
    return false
  let artifacts ← keys .artifacts
  let documents ← Steps.each (keyed hash) artifacts
  let records ← references documents
  let owned := records.filter fun item => item.2.ref = ref
  if ∃ item ∈ owned, scope.generation < item.2.generation then
    return false
  let _ ← Steps.each remove (owned.map Prod.fst)
  remove (.object ref.sha256)
  return true

end Store

inductive Call
  | put    (scope : Scope) (artifact : String) (data : Blob)
  | commit (scope : Scope) (name : String) (artifacts : List String)
  | delete (scope : Scope) (ref : Ref)

inductive Answer
  | ref      (ref : Ref)
  | manifest (m : Manifest)
  | deleted  (gone : Bool)
  deriving DecidableEq

def program (hash : Hashing) : Call → Steps Reply Answer
  | .put scope artifact data       => Answer.ref <$> put hash scope artifact data
  | .commit scope name artifacts   => Answer.manifest <$> commitManifest hash scope name artifacts
  | .delete scope ref              => Answer.deleted <$> deleteIfUnreferenced hash scope ref

abbrev World :=
  Interleaved.World Contents Call Reply Answer

abbrev Event :=
  Interleaved.Event Call (List Key)

def step (hash : Hashing) : World → Event → World :=
  Interleaved.step (program hash) (exec hash)

def empty : World :=
  .start ∅

end Artifacts
