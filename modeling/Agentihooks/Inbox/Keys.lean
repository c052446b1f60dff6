import Mathlib.Data.String.Basic
import Mathlib.Data.Finset.Basic
import Agentihooks.Library.ZSet

-- The Redis keys of one inbox: the items with their histories, the indexes by address, the pool of each swarm and the
-- journal of reserved deliveries. Beside them stands what the inbox reads of the seat registry.

namespace Inbox

abbrev Id := String

abbrev DeliveryId := String

abbrev Slug := String

-- Master seat one is the front door of its swarm.
inductive Address
  | agent (name : String)
  | seat (lane : String) (slug : Slug)
  | master (number : ℕ) (slug : Slug)
  deriving DecidableEq

namespace Address

def isSeat : Address → Bool
  | .agent _ => false
  | _        => true

def slugOf : Address → Option Slug
  | .master 1 slug => some slug
  | _              => none

-- For a seat; the swarm of a name is the name registry's.
def masterOf : Address → Option Address
  | .agent _                     => none
  | .seat _ slug | .master _ slug => some (.master 1 slug)

end Address

inductive ItemState
  | pending
  | delivered
  | confirmed
  | read
  | done
  | blocked
  | handedOff
  | cancelled
  deriving DecidableEq

namespace ItemState

def closed : ItemState → Bool
  | .done | .blocked | .handedOff | .cancelled => true
  | _                                         => false

end ItemState

structure Item where
  sender          : Address
  address         : Address
  text            : String
  state           : ItemState
  createdAt       : ℤ
  updatedAt       : ℤ
  reason          : String
  ref             : String
  sequence        : ℕ
  fyi             : Bool
  task            : String
  deliverySession : String

-- The hash of an item. Writing the item's own fields leaves the marks of the pool and the answer slots as they are.
structure Row extends Item where
  poolHolder : Option Address
  poolSkip   : Option Address
  replies    : Address → Option Id

structure Entry where
  state  : ItemState
  actor  : Address
  reason : String
  at_    : ℤ

inductive DeliveryState
  | reserved
  | submitting
  | unknown
  | accepted
  | rejected
  | superseded
  deriving DecidableEq

structure Delivery where
  recipient : Address
  owner     : String
  item      : Id
  ref       : String
  digest    : String
  state     : DeliveryState
  time      : ℤ
  reason    : String
  committed : Bool

structure Keys where
  items          : Id → Option Row
  history        : Id → List Entry
  entry          : Id → Option String
  address        : Index Address Id
  opened         : Index Address Id
  openSize       : Address → Option ℤ
  openIndexed    : Finset Address
  pending        : Index Address Id
  waiting        : Finset Address
  indexed        : Finset Address
  waking         : Finset Id
  settledExits   : Finset Address
  delivered      : ZSet Id
  sequence       : Address → ℕ
  pool           : Index Slug Id
  pools          : Finset Slug
  last           : Slug → Option ℕ
  holders        : Slug → Finset ℕ
  owner          : Address → Option String
  delivery       : DeliveryId → Option Delivery
  reservation    : Id → Option DeliveryId
  refReservation : Address → String → Option DeliveryId
  deliveries     : Address → Finset DeliveryId
  seen           : Address → Finset String
  occupant       : Address → Option Address

namespace Keys

variable (k : Keys)

def empty : Keys where
  items          := fun _ => none
  history        := fun _ => []
  entry          := fun _ => none
  address        := fun _ => ∅
  opened         := fun _ => ∅
  openSize       := fun _ => none
  openIndexed    := ∅
  pending        := fun _ => ∅
  waiting        := ∅
  indexed        := ∅
  waking         := ∅
  settledExits   := ∅
  delivered      := ∅
  sequence       := fun _ => 0
  pool           := fun _ => ∅
  pools          := ∅
  last           := fun _ => none
  holders        := fun _ => ∅
  owner          := fun _ => none
  delivery       := fun _ => none
  reservation    := fun _ => none
  refReservation := fun _ _ => none
  deliveries     := fun _ => ∅
  seen           := fun _ => ∅
  occupant       := fun _ => none

-- `acts_for`, on canonical names.
def actsFor (actor address : Address) : Bool :=
  actor = address || address.isSeat && k.occupant address = some actor

-- Writes the item's own fields.
def hset (id : Id) (item : Item) : Keys :=
  let row := match k.items id with
    | some row => { row with toItem := item }
    | none     => ⟨item, none, none, fun _ => none⟩
  { k with items := Function.update k.items id (some row) }

-- Writes the marks of a record that exists.
def mark (id : Id) (marks : Row → Row) : Keys :=
  { k with items := Function.update k.items id ((k.items id).map marks) }

def push (id : Id) (entries : List Entry) : Keys :=
  { k with history := Function.update k.history id (k.history id ++ entries) }

def incrOpen (address : Address) (n : ℤ) : Keys :=
  { k with openSize := Function.update k.openSize address (some ((k.openSize address).getD 0 + n)) }

end Keys
end Inbox
