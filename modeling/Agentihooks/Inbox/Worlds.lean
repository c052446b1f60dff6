import Agentihooks.Inbox.Keys

-- Moving an open item from the inbox of one hive member to that of another: a redirect to an address that the other
-- member runs, and a move of the mail of an agent that changed its host.

namespace Inbox

-- The inbox that holds the item and the one that it goes to.
structure Worlds where
  source : Keys
  target : Keys

-- What a redirect expects of the item: nothing, that it is pending, or who received it last.
inductive Expected
  | anything
  | pending
  | receiver (name : Address)
  deriving DecidableEq

def receivedLast (entries : List Entry) : Option Address :=
  (entries.reverse.find? fun e => e.state = .delivered ∨ e.state = .read).map Entry.actor

def Expected.holds (expected : Expected) (row : Row) (entries : List Entry) : Bool :=
  match expected with
  | .anything      => true
  | .pending       => row.state = .pending
  | .receiver name => receivedLast entries = some name

namespace Keys

variable (k : Keys) (id : Id)

-- The item is the only one pending at its address.
def lastPending (address : Address) : Bool :=
  id ∈ k.pending address ∧ (k.pending address).card = 1

def holds (address : Address) : Bool :=
  address.slugOf.any fun slug => id ∈ k.pool slug

def stageRemove (address : Address) : Keys :=
  match address.slugOf with
  | none      => k
  | some slug => { k with pool := k.pool.zrem slug id }

-- The item's own keys and its places in the indexes of its address.
def leave (address : Address) : Keys :=
  { k with
    items     := Function.update k.items id none
    history   := Function.update k.history id []
    entry     := Function.update k.entry id none
    address   := k.address.zrem address id
    opened    := k.opened.zrem address id
    pending   := k.pending.zrem address id
    delivered := k.delivered.zrem id
    openSize  := Function.update k.openSize address (some ((k.openSize address).getD 0 - 1))
    waiting   := if k.lastPending id address then k.waiting.erase address else k.waiting }

def setEntry (about : Option String) : Keys :=
  { k with entry := Function.update k.entry id (about.or (k.entry id)) }

def arrive (moved : Item) (entries : List Entry) (about : Option String) : Keys :=
  let k := ((k.hset id moved).push id entries).setEntry id about
  { k with
    address      := k.address.zadd moved.address id moved.createdAt
    opened       := k.opened.zadd moved.address id moved.createdAt
    settledExits := k.settledExits.erase moved.address
    openSize     := Function.update k.openSize moved.address (some ((k.openSize moved.address).getD 0 + 1))
    pending      := k.pending.zadd moved.address id moved.createdAt
    waiting      := insert moved.address k.waiting }

def nextSequence (address : Address) : Keys :=
  { k with sequence := Function.update k.sequence address (k.sequence address + 1) }

end Keys

namespace Worlds

variable (w : Worlds) (id : Id)

def relocate (row : Row) (moved : Item) (entry : Entry) : Worlds :=
  let target := w.target.nextSequence moved.address
  let moved := { moved with sequence := target.sequence moved.address }
  let source := if w.source.holds id row.address then w.source.stageRemove id row.address else w.source
  { source := source.leave id row.address
    target := target.arrive id moved (w.source.history id ++ [entry]) (w.source.entry id) }

-- `none` where the redirect leaves the item as it is.
def redirect (by_ address : Address) (reason : String) (now : ℤ) (expectedAddress : Option Address)
    (expected : Expected) : Option Worlds :=
  match w.source.items id with
  | none     => none
  | some row =>
    if row.state.closed ∨ expectedAddress.any (· ≠ row.address) ∨ ¬ expected.holds row (w.source.history id) then none
    else
      let moved := { row.toItem with address := address, state := .pending, updatedAt := now, reason := reason }
      some (w.relocate id row moved ⟨.pending, by_, reason, now⟩)

def moveWorld (by_ : Address) (reason : String) (now : ℤ) : Option Worlds :=
  match w.source.items id with
  | none     => none
  | some row =>
    if row.state.closed then none
    else
      let moved := { row.toItem with state := .pending, updatedAt := now, reason := reason }
      let source := w.source.leave id row.address
      let target := w.target.arrive id moved (w.source.history id ++ [⟨.pending, by_, reason, now⟩]) (w.source.entry id)
      some
        { source := { source with waking := source.waking.erase id }
          target := { target with waking := insert id target.waking } }

end Worlds

end Inbox
