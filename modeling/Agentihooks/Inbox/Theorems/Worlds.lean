import Agentihooks.Inbox.Worlds

namespace Inbox

-- No key and no index entry of the item.
structure Absent (k : Keys) (id : Id) : Prop where
  items       : k.items id = none
  history     : k.history id = []
  entry       : k.entry id = none
  reservation : k.reservation id = none
  waking      : id ∉ k.waking
  delivered   : id ∉ k.delivered
  pool        : ∀ slug, id ∉ k.pool slug
  indexes     : ∀ a, id ∉ k.address a ∧ id ∉ k.opened a ∧ id ∉ k.pending a

-- The same message, pending.
structure Renews (row : Row) (moved : Item) : Prop where
  state   : moved.state = .pending
  message : (moved.sender, moved.text, moved.createdAt, moved.ref, moved.fyi, moved.task, moved.deliverySession) =
    (row.sender, row.text, row.createdAt, row.ref, row.fyi, row.task, row.deliverySession)

structure Arrived (k : Keys) (id : Id) (row : Row) (address : Address) (history : List Entry) (about : Option String)
    (size : ℤ) : Prop where
  record  : ∃ moved, k.items id = some moved ∧ Renews row moved.toItem ∧ moved.address = address ∧
    moved.replies = row.replies
  history : k.history id = history
  entry   : k.entry id = about
  indexed : id ∈ k.address address ∧ id ∈ k.opened address ∧ id ∈ k.pending address ∧ address ∈ k.waiting
  size    : k.openSize address = some size

-- The item is in the other world, with its history and one entry more, and in no other place.
structure Moved (w after : Worlds) (id : Id) (row : Row) (address : Address) (entry : Entry) : Prop where
  arrived : Arrived after.target id row address (w.source.history id ++ [entry]) (w.source.entry id)
    ((w.target.openSize address).getD 0 + 1)
  waking  : id ∈ w.source.waking → id ∈ after.target.waking
  left    : Absent after.source id

section Leave

variable {k : Keys} {id : Id} {a : Address}

end Leave

section Arrive

variable {row : Row} {moved : Item}

end Arrive

section Moves

variable {w : Worlds} {id : Id} {row : Row}

end Moves

section Example

def worker : Address :=
  .agent "eng-1@crew"

-- A message that another agent has answered with the item `b`.
def answered : Row where
  sender          := .agent "eng-2@crew"
  address         := worker
  text            := "review this"
  state           := .read
  createdAt       := 1
  updatedAt       := 1
  reason          := ""
  ref             := ""
  sequence        := 1
  fyi             := false
  task            := ""
  deliverySession := ""
  poolHolder      := none
  poolSkip        := none
  replies         := Function.update (fun _ => none) worker (some "b")

end Example

end Inbox
