import Agentihooks.Library.Program
import Agentihooks.Objects.Rows
import Mathlib.Data.Fintype.Defs

namespace Fencing

-- The fields of the document that are not sections; the records layout keeps them in the `meta` hash,
-- where `layout` marks a migrated swarm. `other` is any further scalar a change adds.
inductive Scalar
  | lease
  | legacyOwner
  | epoch
  | leaderChanges
  | grantsDisabled
  | layout
  | other (name : String)
  deriving DecidableEq

abbrev Scalar.Value : Scalar → Type
  | lease          => Option Lease
  | legacyOwner    => String
  | epoch          => Int
  | leaderChanges  => ℕ
  | grantsDisabled => String
  | layout         => String
  | other _        => Json

-- `scalar` is the source's `META`. The last two are derived indexes that only the records layout
-- keeps.
inductive Section
  | scalar
  | intents
  | orphans
  | executions
  | archive
  | grants
  | registrations
  | claims
  | journals
  | fences
  | operations
  | byName
  | archivedNames
  deriving DecidableEq

instance : Fintype Section where
  elems    := {.scalar, .intents, .orphans, .executions, .archive, .grants, .registrations, .claims,
    .journals, .fences, .operations, .byName, .archivedNames}
  complete := fun s => by cases s <;> decide

abbrev Section.Key : Section → Type
  | scalar => Scalar
  | _      => String

abbrev Section.Value : (s : Section) → s.Key → Type
  | scalar, k        => k.Value
  | intents, _       => Intent
  | orphans, _       => ℕ
  | executions, _    => AgentRecord
  | archive, _       => AgentRecord
  | grants, _        => Grant
  | registrations, _ => Registration
  | claims, _        => TaskClaim
  | journals, _      => List JournalEntry
  | fences, _        => Fence
  | operations, _    => Operation
  | byName, _        => String
  | archivedNames, _ => String

instance : ∀ s : Section, DecidableEq s.Key
  | .scalar => inferInstanceAs (DecidableEq Scalar)
  | .intents | .orphans | .executions | .archive | .grants | .registrations | .claims | .journals
  | .fences | .operations | .byName | .archivedNames => inferInstanceAs (DecidableEq String)

instance : ∀ k : Scalar, DecidableEq k.Value
  | .lease => inferInstanceAs (DecidableEq (Option Lease))
  | .epoch => inferInstanceAs (DecidableEq Int)
  | .leaderChanges => inferInstanceAs (DecidableEq ℕ)
  | .legacyOwner | .grantsDisabled | .layout | .other _ => inferInstanceAs (DecidableEq String)

instance : ∀ (s : Section) (k : s.Key), DecidableEq (s.Value k)
  | .scalar, k => inferInstanceAs (DecidableEq (Scalar.Value k))
  | .intents, _ => inferInstanceAs (DecidableEq Intent)
  | .orphans, _ => inferInstanceAs (DecidableEq ℕ)
  | .executions, _ | .archive, _ => inferInstanceAs (DecidableEq AgentRecord)
  | .grants, _ => inferInstanceAs (DecidableEq Grant)
  | .registrations, _ => inferInstanceAs (DecidableEq Registration)
  | .claims, _ => inferInstanceAs (DecidableEq TaskClaim)
  | .journals, _ => inferInstanceAs (DecidableEq (List JournalEntry))
  | .fences, _ => inferInstanceAs (DecidableEq Fence)
  | .operations, _ => inferInstanceAs (DecidableEq Operation)
  | .byName, _ | .archivedNames, _ => inferInstanceAs (DecidableEq String)

abbrev Document :=
  Sections Section.Value

-- What a change can ask beside its document: whether the document refers to an external archive, the
-- rows of that archive, and the row of one archived execution.
inductive Query
  | referenced
  | external
  | archived (executionId : String)
  deriving DecidableEq

abbrev Query.Answer : Query → Type
  | referenced => Bool
  | external   => Except SwarmError (Dict String AgentRecord)
  | archived _ => Except SwarmError (Option AgentRecord)

abbrev History :=
  (q : Query) → q.Answer

-- The history of a document that keeps its whole archive inline.
def History.inline : History
  | .referenced => false
  | .external   => .ok ∅
  | .archived _ => .ok none

abbrev Change :=
  Program Section.Value Query.Answer SwarmError

namespace Document

-- The source's `EMPTY`: a scalar that is absent has its value there.
def empty : Document :=
  fun _ => ∅

def lease (d : Document) : Option Lease :=
  ((d .scalar).lookup .lease).getD none

def legacyOwner (d : Document) : String :=
  ((d .scalar).lookup .legacyOwner).getD ""

def epoch (d : Document) : Int :=
  ((d .scalar).lookup .epoch).getD (0 : Int)

def leaderChanges (d : Document) : ℕ :=
  ((d .scalar).lookup .leaderChanges).getD (0 : ℕ)

end Document

namespace Change

open Program

def lease : Change (Option Lease) := do
  let found ← read .scalar .lease
  return found.getD none

def legacyOwner : Change String := do
  let found ← read .scalar .legacyOwner
  return found.getD ""

def epoch : Change Int := do
  let found ← read .scalar .epoch
  return found.getD (0 : Int)

def leaderChanges : Change ℕ := do
  let found ← read .scalar .leaderChanges
  return found.getD (0 : ℕ)

variable {α : Type} {c : History} {d : Document}

@[simp]
theorem exec_lease (f : Option Lease → Change α) : (lease >>= f).exec c d = (f d.lease).exec c d :=
  rfl

@[simp]
theorem exec_legacyOwner (f : String → Change α) :
    (legacyOwner >>= f).exec c d = (f d.legacyOwner).exec c d :=
  rfl

@[simp]
theorem exec_epoch (f : Int → Change α) : (epoch >>= f).exec c d = (f d.epoch).exec c d :=
  rfl

@[simp]
theorem exec_leaderChanges (f : ℕ → Change α) :
    (leaderChanges >>= f).exec c d = (f d.leaderChanges).exec c d :=
  rfl

def hydrateArchive : Change Unit := do
  let found ← asked Query.external
  let rows ← attempt found
  let archive ← scan .archive
  replace .archive (archive ∪ rows)

@[simp]
theorem exec_hydrateArchive (f : Unit → Change α) :
    (hydrateArchive >>= f).exec c d =
      match c .external with
      | .ok rows => (f ()).exec c (d.assign .archive (d .archive ∪ rows))
      | .error e => .error e := by
  cases h : c .external
  case ok =>
    simp [hydrateArchive, exec_bind, exec, asked, attempt, h]
    rfl
  case error => simp [hydrateArchive, exec_bind, exec, asked, attempt, h]

-- Finds an execution in the current rows, then the inline archive, then the archived rows beside it.
def executionRow (executionId : String) : Change (Option AgentRecord) := do
  let current ← read .executions executionId
  match current with
  | some row => return row
  | none     =>
    let inline ← read .archive executionId
    match inline with
    | some row => return row
    | none     =>
      let found ← asked (Query.archived executionId)
      attempt found

theorem executionRow_ok {executionId : String} {f : Option AgentRecord → Change α}
    {r : α × Document}
    (h : (executionRow executionId >>= f).exec c d = .ok r) : ∃ row, (f row).exec c d = .ok r := by
  unfold executionRow at h
  simp only [exec_bind_assoc, exec_read] at h
  cases he : (d .executions).lookup executionId
  case some row =>
    simp [he] at h
    exact ⟨some row, h⟩
  case none =>
    simp [he] at h
    cases ha : (d .archive).lookup executionId
    case some row =>
      simp [ha] at h
      exact ⟨some row, h⟩
    case none =>
      cases hc : c (.archived executionId)
      case error => simp [ha, hc] at h
      case ok row =>
        simp [ha, hc] at h
        exact ⟨_, h⟩

end Change
end Fencing
