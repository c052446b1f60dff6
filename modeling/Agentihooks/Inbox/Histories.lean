import Mathlib.Data.List.DropRight
import Agentihooks.Inbox.Keys
import Agentihooks.Library.Run

-- The history of an inbox item. State entries and the notes of the wake ladder stand in one list, and three places
-- read from it who took the item last: a redirect or withdrawal that expects a receiver, the return of seat work to
-- the master pool, and the settlement of an exit.

namespace Histories

open Inbox (Id ItemState)

-- A note has an event where a state entry has its state.
inductive Entry
  | state (state : ItemState) (by_ reason : String) (at_ : ℤ) (session : String)
  | event (event by_ reason : String) (at_ : ℤ)
  deriving DecidableEq

structure Row where
  sender    : String
  address   : String
  fyi       : Bool
  state     : ItemState
  updatedAt : ℤ
  reason    : String
  session   : String
  holder    : Option String
  skip      : Option String
  deriving DecidableEq

-- The hash and the history of one item.
structure Record where
  row     : Option Row
  history : List Entry

variable {World : Type} [DecidableEq World]

-- Every world has its own keys for an item.
abbrev Key (World : Type) := World × Id

abbrev Store (World : Type) := Key World → Record

inductive Refusal
  | gone
  | duplicate
  | foreign
  | closed
  | outcome
  | pooled
  | noState
  deriving DecidableEq

inductive Answer
  | item (row : Option Row)
  | name (name : String)
  | wrote (written : Bool)
  deriving DecidableEq

abbrev Outcome (World : Type) := Except Refusal (Store World × Answer)

namespace Store

def empty : Store World := fun _ => ⟨none, []⟩

-- The item's fields and one more entry, in one transaction.
def moved (s : Store World) (k : Key World) (row : Row) (entry : Entry) : Store World :=
  Function.update s k ⟨some row, (s k).history ++ [entry]⟩

-- The item goes to another world with its history; the marks of the pool stay behind.
def relocated (s : Store World) (k dest : Key World) (row : Row) (entry : Entry) : Store World :=
  let there := s dest
  let row := { row with holder := there.row.bind Row.holder, skip := there.row.bind Row.skip }
  Function.update (Function.update s k ⟨none, []⟩) dest
    ⟨some row, there.history ++ (s k).history ++ [entry]⟩

end Store

def entryOf (row : Row) (by_ : String) : Entry :=
  .state row.state by_ row.reason row.updatedAt (if row.state = .delivered then row.session else "")

-- The lookup as it is written at each of the three places: backwards, asking every entry for its state.
def takenBy : List Entry → Except Refusal String
  | []                           => .ok ""
  | .event _ _ _ _ :: _          => .error .noState
  | .state state by_ _ _ _ :: es => if state = .delivered ∨ state = .read then .ok by_ else takenBy es

def receiver (history : List Entry) : Except Refusal String :=
  takenBy history.reverse

section Operations

variable (s : Store World) (k : Key World)

def send (sender address : String) (fyi : Bool) (now : ℤ) : Outcome World :=
  match (s k).row with
  | some _ => .error .duplicate
  | none   =>
    let row : Row := ⟨sender, address, fyi, .pending, now, "", "", none, none⟩
    .ok (s.moved k row (.state .pending sender "" now ""), .item row)

-- The answers of the seats, the pool and the delivery owners come with the call.
structure Circumstances where
  actsFor : Bool
  waits   : Bool
  owned   : Bool
  session : String
  now     : ℤ

def move (by_ : String) (state : ItemState) (reason : String) (onlyFrom : Option (List ItemState))
    (c : Circumstances) : Outcome World :=
  match (s k).row with
  | none     => .error .gone
  | some row =>
    if ¬ c.actsFor then .error .foreign
    else if onlyFrom.any fun states => row.state ∉ states then .ok (s, .item none)
    else if state = .confirmed ∧ row.state = .delivered ∧ row.session ≠ c.session then .ok (s, .item none)
    else if row.state.closed then .error .closed
    else
      let informed := row.fyi ∧ (state = .read ∨ state = .confirmed)
      let reason := if informed then "done: information received" else reason
      let state := if informed then .done else state
      if state = .done ∧ ¬ row.fyi ∧ reason = "done" then .error .outcome
      else if row.state = state then .ok (s, .item row)
      else if ¬ state.closed ∧ c.waits then .error .pooled
      else if state = .delivered ∧ c.owned then .ok (s, .item none)
      else
        let session := if state = .delivered then c.session else row.session
        let row := { row with state := state, updatedAt := c.now, reason := reason, session := session }
        .ok (s.moved k row (entryOf row by_), .item row)

-- A delivery owner's commit of an accepted delivery.
def commit (recipient : String) (c : Circumstances) : Outcome World :=
  match (s k).row with
  | none     => .error .gone
  | some row =>
    if row.state ≠ .pending ∨ ¬ c.actsFor then .ok (s, .item none)
    else
      let row := { row with state := .delivered, updatedAt := c.now, reason := "", session := c.session }
      .ok (s.moved k row (entryOf row recipient), .item row)

-- A reservation closes an item that was already shown.
def supersede (recipient : String) (c : Circumstances) : Outcome World :=
  match (s k).row with
  | none     => .error .gone
  | some row =>
    if row.state ≠ .pending ∨ ¬ c.actsFor then .ok (s, .item none)
    else
      let row := { row with state := .done, updatedAt := c.now, reason := "done: already shown through the ledger" }
      .ok (s.moved k row (entryOf row recipient), .item row)

variable (masterOf : String → String)

-- Pool work goes back to the front door and passes its previous holder over.
def poolReturn (row : Row) (holder : String) : Row :=
  { row with address := masterOf row.address, skip := some holder, holder := none }

-- `live` is whether another master is live or the holder is gone.
def requeue (by_ reason : String) (before : Option ℤ) (live : Bool) (now : ℤ) : Outcome World :=
  match (s k).row with
  | none     => .ok (s, .item none)
  | some row =>
    if row.state ≠ .delivered ∨ before.any fun before => before < row.updatedAt then .ok (s, .item none)
    else
      let moved := { row with state := .pending, updatedAt := now, reason := reason }
      let moved := match row.holder with
        | some holder => if live then poolReturn masterOf moved holder else moved
        | none        => moved
      .ok (s.moved k moved (.state .pending by_ reason now ""), .item moved)

-- The pool hands an item that waits in it to a master seat.
def claim (address by_ : String) (now : ℤ) : Outcome World :=
  match (s k).row with
  | none     => .error .gone
  | some row =>
    if row.state ≠ .pending then .ok (s, .item none)
    else
      let reason := "claimed from the master pool by " ++ address
      let row := { row with
        address := address, updatedAt := now, reason := reason, holder := some address, skip := none }
      .ok (s.moved k row (.state .pending by_ reason now ""), .item row)

-- Opens the item that a refused answer closed.
def reopen (answer by_ reason : String) (now : ℤ) : Outcome World :=
  match (s k).row with
  | none     => .ok (s, .item none)
  | some row =>
    if row.state ≠ .done ∨ row.reason ≠ "done: replied with message " ++ answer then .ok (s, .item none)
    else
      let row := { row with state := .read, updatedAt := now, reason := reason }
      .ok (s.moved k row (.state .read by_ reason now ""), .item row)

def moveWorld (target : World) (by_ reason : String) (now : ℤ) : Outcome World :=
  match (s k).row with
  | none     => .error .gone
  | some row =>
    if row.state.closed then .ok (s, .item none)
    else
      let row := { row with state := .pending, updatedAt := now, reason := reason }
      .ok (s.relocated k (target, k.2) row (.state .pending by_ reason now ""), .item row)

-- `held` is false once the seat that the note is about has a new occupant.
def note (event by_ detail : String) (at_ : ℤ) (held : Bool) : Outcome World :=
  if held then
    .ok (Function.update s k ⟨(s k).row, (s k).history ++ [.event event by_ detail at_]⟩, .wrote true)
  else .ok (s, .wrote false)

-- What follows depends on how the receiver is looked up.
variable (lookup : List Entry → Except Refusal String)

-- Whether the departing receiver is the one expected, where one is.
def departs (expected : String) (history : List Entry) : Except Refusal Bool :=
  if expected = "" then .ok true else (lookup history).map fun by_ => by_ = expected

-- No expected receiver at all stands for an item that must be pending. An empty address withdraws the item.
structure Redirect (World : Type) where
  by_             : String
  address         : String
  reason          : String
  expectedAddress : String
  expected        : Option String
  home            : World
  now             : ℤ

def Redirect.applied (r : Redirect World) (row : Row) : Row :=
  { row with
    address   := if r.address = "" then row.address else r.address
    state     := if r.address = "" then .cancelled else .pending
    updatedAt := r.now
    reason    := r.reason }

def redirect (r : Redirect World) : Outcome World :=
  match (s k).row with
  | none     => .error .gone
  | some row =>
    if row.state.closed ∨ (r.expectedAddress ≠ "" ∧ row.address ≠ r.expectedAddress) then .ok (s, .item none)
    else if r.expected = none ∧ row.state ≠ .pending then .ok (s, .item none)
    else
      match departs lookup (r.expected.getD "") (s k).history with
      | .error e  => .error e
      | .ok false => .ok (s, .item none)
      | .ok true  =>
        let moved := r.applied row
        let entry := Entry.state moved.state r.by_ r.reason r.now ""
        let dest := if r.address = "" then k.1 else r.home
        if dest ≠ k.1 then .ok (s.relocated k (dest, k.2) moved entry, .item moved)
        else
          let marked :=
            if moved.address ≠ row.address then { moved with holder := none, skip := none } else moved
          .ok (s.moved k marked entry, .item moved)

-- `reclaimable` is the pool's answer for the seat.
structure PoolReturn where
  holder      : String
  expected    : String
  reclaimable : Bool
  now         : ℤ

def reclaimed : String := "returned to the master pool: its master is gone"

def returnToPool (r : PoolReturn) : Outcome World :=
  match (s k).row with
  | none     => .ok (s, .item none)
  | some row =>
    if row.state.closed ∨ ¬ (row.address = r.holder ∧ row.holder = some r.holder) then .ok (s, .item none)
    else if row.state ≠ .pending ∧ r.expected = "" ∧ ¬ r.reclaimable then .ok (s, .item none)
    else
      match departs lookup r.expected (s k).history with
      | .error e  => .error e
      | .ok false => .ok (s, .item none)
      | .ok true  =>
        let moved := { row with state := .pending, session := "", updatedAt := r.now, reason := reclaimed }
        let moved := poolReturn masterOf moved r.holder
        .ok (s.moved k moved (.state .pending "inbox" reclaimed r.now ""), .item moved)

def taker : Outcome World :=
  match lookup (s k).history with
  | .error e => .error e
  | .ok by_  => .ok (s, .name by_)

end Operations

inductive Call (World : Type)
  | send (sender address : String) (fyi : Bool) (now : ℤ)
  | move (by_ : String) (state : ItemState) (reason : String) (onlyFrom : Option (List ItemState)) (c : Circumstances)
  | commit (recipient : String) (c : Circumstances)
  | supersede (recipient : String) (c : Circumstances)
  | requeue (by_ reason : String) (before : Option ℤ) (live : Bool) (now : ℤ)
  | claim (address by_ : String) (now : ℤ)
  | reopen (answer by_ reason : String) (now : ℤ)
  | moveWorld (target : World) (by_ reason : String) (now : ℤ)
  | note (event by_ detail : String) (at_ : ℤ) (held : Bool)
  | redirect (r : Redirect World)
  | returnToPool (r : PoolReturn)
  | taker

section Calls

variable (masterOf : String → String) (lookup : List Entry → Except Refusal String)

def answer (s : Store World) (k : Key World) : Call World → Outcome World
  | .send sender address fyi now          => send s k sender address fyi now
  | .move by_ state reason onlyFrom c     => move s k by_ state reason onlyFrom c
  | .commit recipient c                   => commit s k recipient c
  | .supersede recipient c                => supersede s k recipient c
  | .requeue by_ reason before live now   => requeue s k masterOf by_ reason before live now
  | .claim address by_ now                => claim s k address by_ now
  | .reopen answer by_ reason now         => reopen s k answer by_ reason now
  | .moveWorld target by_ reason now      => moveWorld s k target by_ reason now
  | .note event by_ detail at_ held       => note s k event by_ detail at_ held
  | .redirect r                           => redirect s k lookup r
  | .returnToPool r                       => returnToPool s k masterOf lookup r
  | .taker                                => taker s k lookup

-- A call that raises has written nothing.
def step (s : Store World) (event : Key World × Call World) : Store World :=
  match answer masterOf receiver s event.1 event.2 with
  | .ok (s, _) => s
  | .error _   => s

end Calls

end Histories
