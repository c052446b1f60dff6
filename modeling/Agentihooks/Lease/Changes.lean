import Agentihooks.Fencing.Document

namespace Lease

open Program Fencing Fencing.Change

def stale : SwarmError :=
  "the controller lease is stale"

def incompatible : SwarmError :=
  "the controller lease belongs to an incompatible owner"

def live (recorded : Option Lease) (now : Int) : Option Lease :=
  recorded.filter fun held => now < held.expiresAt

@[simp]
theorem live_eq_some {recorded : Option Lease} {now : Int} {l : Lease} :
    live recorded now = some l ↔ recorded = some l ∧ now < l.expiresAt := by
  simp [live]

def hold (held : Lease) : Change Lease := do
  write .scalar .lease (some held)
  write .scalar .epoch held.epoch
  write .scalar .legacyOwner ""
  return held

-- `acquire`. The clock and the two ways the caller is known, by its hive and by the name of its host,
-- are arguments.
def take (owner hostname : String) (now ttl : Int) : Change (Option Lease) := do
  let held ← lease
  let legacy ← legacyOwner
  match live held now with
  | some current =>
    if current.owner ≠ owner ∧ current.owner ≠ hostname then
      return none
    else
      let renewed ← hold ⟨owner, current.epoch, now + ttl⟩
      return some renewed
  | none =>
    let last ← Change.epoch
    let changes ← leaderChanges
    let keeper := if legacy ≠ "" ∧ held = none ∧ legacy ≠ hostname then legacy else owner
    write .scalar .leaderChanges (changes + 1)
    let renewed ← hold ⟨keeper, last + 1, now + ttl⟩
    return if keeper = owner then some renewed else none

-- `transfer`.
def move (owner : String) (sourceEpoch expectedEpoch now ttl : Int) : Change Lease := do
  let legacy ← legacyOwner
  ensure (legacy = "") incompatible
  let held ← lease
  let current := live held now
  ensure (current.elim 0 (·.epoch) = expectedEpoch ∧ current.all (·.owner = owner)) stale
  let last ← Change.epoch
  hold ⟨owner, max (max last sourceEpoch) (current.elim 0 (·.epoch)) + 1, now + ttl⟩

end Lease

namespace Held

open Program Fencing Fencing.Change

def agrees (held : Held) (live : Lease) : Bool :=
  match held with
  | lease held => live.owner = held.owner ∧ live.epoch = held.epoch
  | epoch held => live.epoch = held

-- The epoch a write is made under.
def epochOf : Held → Int
  | lease held => held.epoch
  | epoch held => held

theorem epoch_of_agrees {held : Held} {live : Lease} (h : held.agrees live) : live.epoch = held.epochOf := by
  cases held
  case lease => exact (of_decide_eq_true h).right
  case epoch => exact of_decide_eq_true h

-- What `_check` asks: the held lease, or one of the held epoch, is the live lease.
def isLive (held : Held) (recorded : Option Lease) (now : Int) : Bool :=
  (Lease.live recorded now).any held.agrees

theorem isLive_iff {held : Held} {recorded : Option Lease} {now : Int} :
    held.isLive recorded now ↔ ∃ l, recorded = some l ∧ now < l.expiresAt ∧ held.agrees l := by
  simp [isLive, Option.any_eq_true, and_assoc]

def check (held : Held) (now : Int) : Change Unit := do
  let recorded ← Change.lease
  ensure (held.isLive recorded now) Lease.stale

-- The change a fenced write hands to the layout.
def guarded {α : Type} (held : Held) (now : Int) (change : Change α) : Change α := do
  check held now
  change

variable {α : Type} {held : Held} {now : Int} {change : Change α} {c : History} {d : Document}

theorem exec_guarded :
    (held.guarded now change).exec c d =
      if held.isLive d.lease now then change.exec c d else .error Lease.stale := by
  simp [guarded, check]

end Held

namespace Lease

open Program Fencing Fencing.Change

-- `fenced`.
def fenced {α : Type} (held : Option Held) (now : Int) (change : Change α) : Change α :=
  match held with
  | none      => change
  | some held => held.guarded now change

-- `renew`, past its cheap look at the cached lease.
def extend (held : Lease) (now tick : Int) : Change Lease := do
  (Held.lease held).check now
  let recorded ← lease
  match recorded with
  | none      => refuse stale
  | some live =>
    if live.expiresAt - now ≥ 3 * tick - tick then
      return live
    else
      write .scalar .lease (some ⟨held.owner, held.epoch, now + 3 * tick⟩)
      return ⟨held.owner, held.epoch, now + 3 * tick⟩

-- `release`.
def drop (held : Lease) (now : Int) : Change Unit := do
  (Held.lease held).check now
  write .scalar .lease none

theorem fenced_ok {α : Type} {held : Option Held} {now : Int} {change : Change α} {c : History}
    {d : Document} {r : α × Document} (h : (fenced held now change).exec c d = .ok r) :
    change.exec c d = .ok r ∧ ∀ l ∈ held, l.isLive d.lease now := by
  cases held
  case none => exact ⟨h, by simp⟩
  case some held =>
    simp only [fenced, Held.exec_guarded] at h
    split at h
    case isTrue hl => exact ⟨h, by simpa using hl⟩
    case isFalse   => cases h

end Lease
