import Mathlib.Data.Finset.Sort
import Mathlib.Data.Prod.Lex
import Mathlib.Data.String.Basic
import Mathlib.Algebra.Ring.Nat
import Mathlib.Logic.Function.Basic
import Agentihooks.Library.Finmap
import Agentihooks.Objects.Rows
import Agentihooks.Library.Run

-- The transcript spool of an execution: batch files in the order of their sequence numbers, and the file that says up
-- to where they are settled.

namespace Spool

def recentIdentities : ℕ :=
  4096

structure Entry where
  sequence : ℕ
  identity : String
  created  : ℤ
  records  : List String
  deriving DecidableEq

-- The name of a batch file: the sequence number with leading zeros, and the key of the identity.
structure Name where
  sequence : ℕ
  key      : String

instance : LinearOrder Name :=
  LinearOrder.lift' (fun name => toLex (name.sequence, name.key)) fun a b h => by
    cases a
    cases b
    simpa using h

-- What a batch file holds: an entry, if it parses and its checksum is right.
structure File where
  body : Option Entry
  size : ℕ

abbrev Batches :=
  Dict Name File

structure Ack where
  settled : ℕ
  lost    : List ℕ
  recent  : List (String × ℕ)
  deriving DecidableEq

def Ack.initial : Ack :=
  ⟨0, [], []⟩

-- `_key` and the length of the text of an entry are what they are.
structure Config where
  maxBytes  : ℕ
  warnBytes : ℕ
  key       : String → String
  length    : Entry → ℕ

section Files

variable (batches : Batches)

-- `_files`
def pending (settled : ℕ) : List Name :=
  (batches.keys.filter fun name => settled < name.sequence).sort

-- `_read`
def read (name : Name) : Option Entry :=
  ((batches.lookup name).bind File.body).filter fun entry => entry.sequence = name.sequence

def size (name : Name) : ℕ :=
  ((batches.lookup name).map File.size).getD 0

def bytes (names : List Name) : ℕ :=
  (names.map (size batches)).sum

-- The entry that is pending for a key.
def buffered (names : List Name) (key : String) : Option Entry :=
  (names.filter fun name => name.key = key).findSome? (read batches)

end Files

-- `list[-n:]`
def latest {α : Type} (n : ℕ) (items : List α) : List α :=
  items.drop (items.length - n)

-- A key that the dict holds already keeps its place.
def remember (recent : List (String × ℕ)) (key : String) (sequence : ℕ) : List (String × ℕ) :=
  if key ∈ recent.map Prod.fst then recent.map fun item => if item.1 = key then (key, sequence) else item
  else recent ++ [(key, sequence)]

namespace Ack

variable (ack : Ack)

def recalls (key : String) : Prop :=
  key ∈ ack.recent.map Prod.fst

instance {key : String} : Decidable (ack.recalls key) :=
  inferInstanceAs (Decidable (_ ∈ _))

-- `_acknowledge`
def acknowledge (name : Name) (lost : Bool) : Ack where
  settled := name.sequence
  lost    := if lost then ack.lost ++ [name.sequence] else ack.lost
  recent  := latest recentIdentities (if lost then ack.recent else remember ack.recent name.key name.sequence)

def next (names : List Name) : ℕ :=
  (names.map Name.sequence).foldl max ack.settled + 1

end Ack

structure Status where
  level        : String
  buffered     : ℕ
  settled      : ℕ
  acknowledged : ℤ
  pending      : List ℕ
  corrupt      : List ℕ
  lost         : List ℕ
  bytes        : ℕ
  lag          : ℤ
  deriving DecidableEq

-- `status`
def status (config : Config) (batches : Batches) (ack : Ack) (now : ℤ) : Status :=
  let names := pending batches ack.settled
  let size := bytes batches names
  let created := names.filterMap fun name => (read batches name).map Entry.created
  { level        := if config.maxBytes ≤ size then "full" else if config.warnBytes ≤ size then "warning" else "ok"
    buffered     := (names.map Name.sequence).foldl max ack.settled
    settled      := ack.settled
    acknowledged := match ack.lost.min? with
      | some first => (first : ℤ) - 1
      | none       => ack.settled
    pending      := (names.filter fun name => (read batches name).isSome).map Name.sequence
    corrupt      := (names.filter fun name => (read batches name).isNone).map Name.sequence
    lost         := ack.lost
    bytes        := size
    lag          := match created.min? with
      | some first => max 0 (now - first)
      | none       => 0 }

end Spool

-- Appends, status queries and flushes of several processes on one spool, a file operation at a time. What is read under
-- the lock is read in the steps in which the code comes to it; a crash frees the locks.

namespace Spool

-- Where a flush is: what it has settled, the file it is at, and the files after it.
structure Flush where
  uploaded : List ℕ
  lost     : List ℕ
  name     : Name
  left     : List Name

inductive Stage
  | append       (identity : String) (records : List String)
  | appendAck    (identity : String) (records : List String)
  | appendFiles  (identity : String) (records : List String) (ack : Ack)
  | appendSize   (identity : String) (records : List String) (ack : Ack) (names : List Name)
  | appendWrite  (name : Name) (entry : Entry)
  | status
  | statusAck
  | statusFiles  (ack : Ack)
  | flush
  | flushFiles
  | flushRead    (at_ : Flush)
  | flushUpload  (at_ : Flush) (entry : Entry)
  | settle       (at_ : Flush) (lost : Bool)
  | settleAck    (at_ : Flush) (lost : Bool)
  | settleWrite  (at_ : Flush) (lost : Bool) (ack : Ack)
  | settleRemove (at_ : Flush) (lost : Bool)

inductive Answer
  | entry   (entry : Option Entry)
  | full
  | status  (status : Status)
  | flushed (uploaded lost : List ℕ) (failed : Bool)

-- The last four fields record what has happened: the entries that were appended, the uploads that were tried and those
-- that were accepted, and the keys that were acknowledged.
structure State where
  batches   : Batches
  ack       : Option Ack
  spoolLock : Option ℕ
  flushLock : Option ℕ
  calls     : ℕ → Option Stage
  appended  : List Entry
  tried     : List Entry
  accepted  : List Entry
  acked     : List String

def empty : State :=
  ⟨∅, some .initial, none, none, fun _ => none, [], [], [], []⟩

-- What a step gets from outside: the clock, and whether an upload is accepted.
structure Choice where
  now      : ℤ
  accepted : Bool

namespace State

variable (s : State) (id : ℕ)

def goTo (stage : Stage) : State :=
  { s with calls := Function.update s.calls id (some stage) }

-- The call is over, and its locks are free.
def leave : State :=
  { s with
    spoolLock := if s.spoolLock = some id then none else s.spoolLock
    flushLock := if s.flushLock = some id then none else s.flushLock
    calls     := Function.update s.calls id none }

def unlock : State :=
  { s with spoolLock := none }

-- The loop of `flush`.
def following (uploaded lost : List ℕ) : List Name → State × Option Answer
  | []           => (s.leave id, some (.flushed uploaded lost false))
  | name :: left => (s.goTo id (.flushRead ⟨uploaded, lost, name, left⟩), none)

def appended_ (name : Name) (entry : Entry) (length : ℕ) : State :=
  { s with batches := s.batches.insert name ⟨some entry, length⟩, appended := s.appended ++ [entry] }

-- Whether an upload that raises was accepted is not known.
def upload (entry : Entry) (accepted : Bool) : State :=
  { s with tried := s.tried ++ [entry], accepted := if accepted then s.accepted ++ [entry] else s.accepted }

def acknowledge (name : Name) (lost : Bool) (ack : Ack) : State :=
  { s with ack := some (ack.acknowledge name lost), acked := if lost then s.acked else s.acked ++ [name.key] }

def remove (name : Name) : State :=
  { s with batches := s.batches.erase name }

-- The next file operation of a call, and what the call returns if it ends with it. A call that finds a lock taken waits.
def turn (config : Config) (choice : Choice) (stage : Stage) : State × Option Answer :=
  match stage with
  | .append identity records               =>
    if s.spoolLock = none then ({ s with spoolLock := some id }.goTo id (.appendAck identity records), none) else (s, none)
  | .appendAck identity records            =>
    match s.ack with
    | none     => (s.leave id, none)
    | some ack =>
      if ack.recalls (config.key identity) then (s.leave id, some (.entry none))
      else (s.goTo id (.appendFiles identity records ack), none)
  | .appendFiles identity records ack      =>
    match s.ack with
    | none    => (s.leave id, none)
    | some at_ =>
      let names := pending s.batches at_.settled
      match buffered s.batches names (config.key identity) with
      | some entry => (s.leave id, some (.entry entry))
      | none       => (s.goTo id (.appendSize identity records ack names), none)
  | .appendSize identity records ack names =>
    let entry : Entry := ⟨ack.next names, identity, choice.now, records⟩
    if config.maxBytes < bytes s.batches names + config.length entry then (s.leave id, some .full)
    else (s.goTo id (.appendWrite ⟨entry.sequence, config.key identity⟩ entry), none)
  | .appendWrite name entry                => ((s.appended_ name entry (config.length entry)).leave id, some (.entry entry))
  | .status                                =>
    if s.spoolLock = none then ({ s with spoolLock := some id }.goTo id .statusAck, none) else (s, none)
  | .statusAck                             =>
    match s.ack with
    | none     => (s.leave id, none)
    | some ack => (s.goTo id (.statusFiles ack), none)
  | .statusFiles ack                       => (s.leave id, some (.status (Spool.status config s.batches ack choice.now)))
  | .flush                                 =>
    if s.flushLock = none then ({ s with flushLock := some id }.goTo id .flushFiles, none) else (s, none)
  | .flushFiles                            =>
    match s.ack with
    | none     => (s.leave id, none)
    | some ack => s.following id [] [] (pending s.batches ack.settled)
  | .flushRead at_                         =>
    if s.batches.lookup at_.name = none then (s.leave id, none)
    else match read s.batches at_.name with
      | some entry => (s.goTo id (.flushUpload at_ entry), none)
      | none       => (s.goTo id (.settle at_ true), none)
  | .flushUpload at_ entry                 =>
    let s := s.upload entry choice.accepted
    if choice.accepted then (s.goTo id (.settle at_ false), none)
    else (s.leave id, some (.flushed at_.uploaded at_.lost true))
  | .settle at_ lost                       =>
    if s.spoolLock = none then ({ s with spoolLock := some id }.goTo id (.settleAck at_ lost), none) else (s, none)
  | .settleAck at_ lost                    =>
    match s.ack with
    | none     => (s.leave id, none)
    | some ack =>
      if at_.name.sequence ≤ ack.settled then (s.goTo id (.settleRemove at_ lost), none)
      else (s.goTo id (.settleWrite at_ lost ack), none)
  | .settleWrite at_ lost ack              => ((s.acknowledge at_.name lost ack).goTo id (.settleRemove at_ lost), none)
  | .settleRemove at_ lost                 =>
    (s.remove at_.name).unlock.following id (if lost then at_.uploaded else at_.uploaded ++ [at_.name.sequence])
      (if lost then at_.lost ++ [at_.name.sequence] else at_.lost) at_.left

end State

inductive Call
  | append (identity : String) (records : List String)
  | status
  | flush

def Call.begin_ : Call → Stage
  | .append identity records => .append identity records
  | .status                  => .status
  | .flush                   => .flush

-- Calls begin, go on and crash; a batch file is corrupted, and so is the file that says what is settled.
inductive Event
  | call       (id : ℕ) (call : Call)
  | turn       (id : ℕ) (choice : Choice)
  | crash      (id : ℕ)
  | corrupt    (name : Name) (file : File)
  | corruptAck (ack : Option Ack)

def step (config : Config) (s : State) : Event → State
  | .call id call      => if (s.calls id).isSome then s else s.goTo id call.begin_
  | .turn id choice    => (s.calls id).elim s fun stage => (s.turn id config choice stage).1
  | .crash id          => s.leave id
  | .corrupt name file => if name ∈ s.batches then { s with batches := s.batches.insert name file } else s
  | .corruptAck ack    => { s with ack := ack }

end Spool
