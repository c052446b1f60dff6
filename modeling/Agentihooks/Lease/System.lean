import Agentihooks.Library.Run
import Agentihooks.Fencing.Write

-- The controller lease of one swarm: any number of callers, each with one operation under way, on either
-- layout. An operation carries the clock it reads and how its caller is known; one that is refused is loaded
-- again with another clock.

namespace Lease

open Program Fencing

-- What is done under the lease leaves it and the epoch alone.
structure Work where
  change : Change Unit
  kind   : Kind
  keeps  : ∀ {c d r d'}, change.exec c d = .ok (r, d') → ∀ k ∈ ({.lease, .epoch} : Finset Scalar),
    (d' .scalar).lookup k = (d .scalar).lookup k

-- `renew` is past its cheap look at the cached lease, `acquire` past the host the swarm is bound to.
inductive Operation
  | acquire (owner hostname : String) (now ttl : Int)
  | transfer (owner : String) (sourceEpoch expectedEpoch now ttl : Int)
  | renew (held : Lease) (now tick : Int)
  | release (held : Lease) (now : Int)
  | fenced (held : Option Held) (now : Int) (work : Work)

namespace Operation

-- The lease an operation returns, if any.
def change : Operation → Change (Option Lease)
  | acquire owner hostname now ttl                      => take owner hostname now ttl
  | transfer owner sourceEpoch expectedEpoch now ttl    =>
    some <$> move owner sourceEpoch expectedEpoch now ttl
  | renew held now tick                                 => some <$> extend held now tick
  | release held now                                    => (fun _ => none) <$> drop held now
  | fenced held now work                                => (fun _ => none) <$> Lease.fenced held now work.change

def kind : Operation → Kind
  | fenced _ _ work => work.kind
  | _               => .plain

def fence : Operation → Option Held
  | fenced held _ _ => held
  | _               => none

def write (operation : Operation) : FencedWrite (Option Lease) :=
  ⟨operation.change, operation.kind, operation.fence⟩

def Grants : Operation → Prop
  | acquire .. | transfer .. => True
  | _                        => False

instance : DecidablePred Grants := fun operation => by
  cases operation <;> unfold Grants <;> infer_instance

-- The caller has the live lease of `d` already, under one of its names.
def Holding (d : Document) : Operation → Prop
  | acquire owner hostname now _  => ∃ l ∈ live d.lease now, l.owner = owner ∨ l.owner = hostname
  | transfer owner _ _ now _      => ∃ l ∈ live d.lease now, l.owner = owner
  | _                             => False

-- The lease that a `renew` or a `release` presents.
def presented : Operation → Option Lease
  | renew held .. | release held _ => held
  | _                              => none

end Operation

-- `granted` records the lease of the swarm at first and then, in the order of their commits, those that were
-- granted: an `acquire` or a `transfer` left them where they were not before.
structure System where
  swarm    : Swarm
  attempts : ℕ → Option (Operation × WriteAttempt (Option Lease))
  granted  : List Lease

inductive Event
  | load (caller : ℕ) (operation : Operation)
  | run (caller : ℕ)
  | commit (caller : ℕ) (nowMs : Int)

-- The lease `operation` grants where it leads from `d` to `d'`.
def grant (operation : Operation) (d d' : Document) : List Lease :=
  if operation.Grants ∧ d'.lease ≠ d.lease then d'.lease.toList else []

namespace System

def start (swarm : Swarm) : System :=
  ⟨swarm, fun _ => none, swarm.document.lease.toList⟩

def leave (s : System) (caller : ℕ) (attempt : Option (Operation × WriteAttempt (Option Lease))) : System :=
  { s with attempts := Function.update s.attempts caller attempt }

def step (s : System) : Event → System
  | .load caller operation => s.leave caller (some (operation, s.swarm.start operation.write))
  | .run caller            => s.leave caller <| (s.attempts caller).map fun (operation, t) =>
      (operation, t.hydrate s.swarm.store)
  | .commit caller nowMs   =>
    match s.attempts caller with
    | none                => s
    | some (operation, t) =>
      match (s.swarm.commit t nowMs).next with
      | none       => s.leave caller none
      | some swarm => { s.leave caller none with
        swarm   := swarm
        granted := s.granted ++ grant operation s.swarm.document swarm.document }

def run (swarm : Swarm) (es : List Event) : System :=
  Run.run step (start swarm) es

-- The operation of the caller is committed at `nowMs`, and leads to `swarm`.
def Commits (s : System) (caller : ℕ) (nowMs : Int) (operation : Operation) (swarm : Swarm) : Prop :=
  ∃ t, s.attempts caller = some (operation, t) ∧ (s.swarm.commit t nowMs).next = some swarm

-- A lease of a greater epoch was granted, or the lease that is recorded is another one.
def Superseded (s : System) (held : Lease) : Prop :=
  (∃ g ∈ s.granted, held.epoch < g.epoch) ∨
    ∀ l ∈ s.swarm.document.lease, ¬(l.owner = held.owner ∧ l.epoch = held.epoch)

end System
end Lease

-- The life of one swarm: its lease changes hands, it is removed, exported, and put back. Each of these is a
-- change of its own of the document, on either layout.

namespace Lease

open Program Fencing

-- A document that was exported, and whether it had an `archive_ref`.
structure Saved where
  document : Document
  external : Bool

-- `read`, which `export` calls.
def saved (swarm : Swarm) : Saved :=
  if swarm.entry.moved then
    ⟨assemble (sections swarm.store fun _ => true), false⟩
  else
    ⟨swarm.entry.decode.assign .archive (swarm.entry.decode .archive ∪ swarm.entry.external),
      swarm.entry.reference.isSome⟩

-- The saved document with the rest of `EMPTY`.
def Saved.restored (saved : Saved) : Document
  | .scalar => saved.document .scalar ∪ defaults
  | s       => saved.document s

-- The parts of a document.
def parts : List Section :=
  [.scalar, .intents, .orphans, .executions, .archive, .grants, .registrations, .claims, .journals, .fences,
    .operations]

-- `replace`.
def putBack (saved : Saved) : FencedWrite Unit where
  change := parts.forM fun s => replace s (saved.restored s)
  kind   := .replacement saved.external
  fence  := none

-- What `remove` writes.
def removal : FencedWrite Unit where
  change := do
    let last ← Change.epoch
    (parts.erase .scalar).forM fun s => replace s ∅
    writeAll .scalar (defaults.insert .epoch last)
  kind   := .plain
  fence  := none

-- The machine an owner is on. A hive and the name of its host are one owner.
def Operation.Named (machine : String → String) : Operation → Prop
  | acquire owner hostname _ _ => machine hostname = machine owner
  | _                          => True

-- The exports, and every lease that was granted, in order: the one that the swarm has at first, and those an
-- `acquire` or a `transfer` left where they were not before.
structure Lifetime where
  swarm   : Swarm
  exports : List Saved
  granted : List Lease

namespace Lifetime

-- Without an exported document, `restore` imports one from the legacy keys.
inductive Event (machine : String → String)
  | lease (operation : Operation) (nowMs : Int) (h : operation.Named machine)
  | remove
  | «export»
  | restore (i : ℕ)
  | legacy (document : Document)

def start (swarm : Swarm) : Lifetime :=
  ⟨swarm, [], swarm.document.lease.toList⟩

-- A write that nobody else gets in the way of.
def alone {α : Type} (w : FencedWrite α) (nowMs : Int) (swarm : Swarm) : Option Swarm :=
  (swarm.commit (swarm.start w) nowMs).next

def write (s : Lifetime) (w : FencedWrite Unit) : Lifetime :=
  { s with swarm := (alone w 0 s.swarm).getD s.swarm }

variable {machine : String → String}

def step (s : Lifetime) : Event machine → Lifetime
  | .lease operation nowMs _ =>
    match alone operation.write nowMs s.swarm with
    | none       => s
    | some swarm => { s with
        swarm   := swarm
        granted := s.granted ++ grant operation s.swarm.document swarm.document }
  | .remove          => s.write removal
  | .export          => { s with exports := s.exports ++ [saved s.swarm] }
  | .restore i       => s.exports[i]?.elim s fun saved => s.write (putBack saved)
  | .legacy document => s.write (putBack ⟨document, false⟩)

def run (swarm : Swarm) (es : List (Event machine)) : Lifetime :=
  Run.run step (start swarm) es

-- What is put back is not behind the swarm, and a lease that is imported is ahead of it.
def Forward (s : Lifetime) : Event machine → Prop
  | .restore i       => ∀ saved ∈ s.exports[i]?, s.swarm.document.epoch ≤ saved.restored.epoch
  | .legacy document =>
    s.swarm.document.epoch ≤ (Saved.restored ⟨document, false⟩).epoch ∧
    ∀ l ∈ (Saved.restored ⟨document, false⟩).lease,
      l.epoch = (Saved.restored ⟨document, false⟩).epoch ∧ s.swarm.document.epoch < l.epoch
  | _                => True

end Lifetime
end Lease
