import Mathlib.Data.Finset.Sort
import Mathlib.Data.String.Basic
import Agentihooks.Ingest.Catalog
import Agentihooks.Library.Run

-- Garbage collection of the archive's objects: uploads reserve a digest before its bytes land, a commit releases the
-- reservation and archives the object, and a collection unlinks the objects of expired reservations. The catalog's
-- transactions are atomic; everything between two of them is a step of its own, and any process may crash there.

namespace Collection

open Ingest (Scope)

abbrev Bytes := List UInt8

-- `DIGEST`
def isDigest (name : String) : Bool :=
  name.length = 64 ∧ name.toList.all fun c => c ∈ "0123456789abcdef".toList

structure ArchiveEntry where
  scope        : Scope
  byteStart    : ℤ
  byteEnd      : ℤ
  objectDigest : String
  deriving DecidableEq

inductive ReservationState
  | reserved
  | collecting
  deriving DecidableEq

structure Reservation where
  objectDigest : String
  attempt      : String
  expiresAt    : ℤ
  state        : ReservationState
  deriving DecidableEq

inductive Refusal
  | badName
  | badDigest
  | underCollection
  | reservationConflict
  | unknownUpload
  | wrongObject
  | foreignEntry
  | missing
  | altered
  | unregistered
  | archiveConflict
  | overlapConflict
  deriving DecidableEq

-- The reservations are held by their domain and upload id, the archive's rows by their scope and first byte.
structure Catalog where
  reservations : Dict (String × String) Reservation
  manifest     : Dict (Scope × ℤ) (ℤ × String)
  sources      : Finset Scope

-- Why an object is kept.
inductive Reason
  | authoritative
  | live
  | rebound
  | missing
  | unowned
  | altered
  | foreign
  deriving DecidableEq

def Reason.rejected : Reason → Bool
  | unowned | altered | missing | foreign => true
  | authoritative | live | rebound        => false

structure Plan where
  corpus      : String
  grace       : ℤ
  now         : ℤ
  destructive : Bool

structure Report where
  uploads        : List String
  kept           : List (Reason × String)
  reclaimedBytes : ℕ

namespace Report

variable (r : Report)

def empty : Report :=
  ⟨[], [], 0⟩

def keep (reason : Reason) (name : String) : Report :=
  { r with kept := r.kept ++ [(reason, name)] }

def reclaim (name : String) (size : ℕ) : Report :=
  { r with uploads := r.uploads ++ [name], reclaimedBytes := r.reclaimedBytes + size }

def rejections : ℕ :=
  r.kept.countP (·.1.rejected)

end Report

namespace Catalog

variable (c : Catalog)

def empty : Catalog :=
  ⟨∅, ∅, ∅⟩

-- `DIGEST_STATES`, by what is asked of one of its rows.
def anyRow (digest : String) (p : String → Reservation → Prop) : Prop :=
  c.reservations.Exists fun key row => row.objectDigest = digest ∧ p key.1 row

instance (digest : String) (p : String → Reservation → Prop) [∀ domain row, Decidable (p domain row)] :
    Decidable (c.anyRow digest p) :=
  inferInstanceAs (Decidable (c.reservations.Exists _))

def collecting (digest : String) : Prop :=
  c.anyRow digest fun _ row => row.state = .collecting

instance (digest : String) : Decidable (c.collecting digest) :=
  inferInstanceAs (Decidable (c.anyRow _ _))

def archived (digest : String) : Prop :=
  c.manifest.Exists fun _ row => row.2 = digest

instance (digest : String) : Decidable (c.archived digest) :=
  inferInstanceAs (Decidable (c.manifest.Exists _))

def allArchived : Finset String :=
  c.manifest.keys.biUnion fun key => ((c.manifest.lookup key).map Prod.snd).toFinset

def reservedDigests (domain : String) : Finset String :=
  (c.reservations.keys.filter (·.1 = domain)).biUnion fun key =>
    ((c.reservations.lookup key).map Reservation.objectDigest).toFinset

def register (scope : Scope) : Catalog :=
  { c with sources := insert scope c.sources }

def reserve (corpus uploadId digest attempt : String) (expiresAt : ℤ) : Except Refusal Catalog :=
  let row : Reservation := ⟨digest, attempt, expiresAt, .reserved⟩
  if ¬isDigest digest then .error .badDigest
  else if c.collecting digest then .error .underCollection
  else match c.reservations.lookup (corpus, uploadId) with
    | none       => .ok { c with reservations := c.reservations.insert (corpus, uploadId) row }
    | some found => if found = row then .ok c else .error .reservationConflict

-- The first transaction of a commit.
def release (corpus uploadId : String) (entry : ArchiveEntry) : Except Refusal Catalog :=
  if entry.scope.accessDomain ≠ corpus then .error .foreignEntry
  else match c.reservations.lookup (corpus, uploadId) with
    | none       => .error .unknownUpload
    | some found =>
      if found.state ≠ .reserved then .error .unknownUpload
      else if found.objectDigest ≠ entry.objectDigest then .error .wrongObject
      else .ok { c with reservations := c.reservations.erase (corpus, uploadId) }

-- Whether a row was inserted.
def archive (entry : ArchiveEntry) : Except Refusal (Bool × Catalog) :=
  if entry.scope ∉ c.sources then .error .unregistered
  else match c.manifest.lookup (entry.scope, entry.byteStart) with
    | some found => if found ≠ (entry.byteEnd, entry.objectDigest) then .error .archiveConflict else .ok (false, c)
    | none       =>
      if c.manifest.Exists fun key row => key.1 = entry.scope ∧ key.2 < entry.byteEnd ∧ entry.byteStart < row.1 then
        .error .overlapConflict
      else .ok (true, { c with
        manifest := c.manifest.insert (entry.scope, entry.byteStart) (entry.byteEnd, entry.objectDigest) })

def referenced (references : Finset String) (digest : String) : Prop :=
  c.archived digest ∨ digest ∈ references

instance (references : Finset String) (digest : String) : Decidable (c.referenced references digest) :=
  inferInstanceAs (Decidable (_ ∨ _))

-- Nothing is said of a digest whose reservations are all the plan's and past their grace.
def owner (plan : Plan) (digest : String) : Option Reason :=
  if ¬c.anyRow digest fun _ _ => True then some .unowned
  else if c.anyRow digest fun domain _ => domain ≠ plan.corpus then some .foreign
  else if c.anyRow digest fun _ row => row.state = .reserved ∧ plan.now < row.expiresAt + plan.grace then some .live
  else none

def settle (digest : String) : Catalog :=
  { c with reservations := c.reservations.select fun _ row => ¬(row.objectDigest = digest ∧ row.state = .collecting) }

def mark (digest : String) : Catalog :=
  { c with
    reservations := c.reservations.mapValues fun _ row =>
      if row.objectDigest = digest then { row with state := .collecting } else row }

def claim (plan : Plan) (references : Finset String) (digest : String) : Option Reason × Catalog :=
  if c.referenced references digest then
    (some (if c.collecting digest then .rebound else .authoritative), c.settle digest)
  else match c.owner plan digest with
    | some reason => (some reason, c)
    | none        => (none, c.mark digest)

def dropDigest (digest : String) : Catalog :=
  { c with reservations := c.reservations.select fun _ row => row.objectDigest ≠ digest }

end Catalog

end Collection
