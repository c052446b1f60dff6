import Mathlib.Data.List.MinMax
import Mathlib.Data.Prod.Lex
import Mathlib.Data.String.Basic
import Agentihooks.Library.Finmap
import Agentihooks.Objects.Rows
import Agentihooks.Library.Run

-- The master seats of a swarm, and the phases each of them owns.

namespace Masters

-- `seat`: the first seat is the lead.
def seat (index : ℕ) : String :=
  if index = 1 then "master" else s!"master-{index}"

def seatAddress (slug seat : String) : String :=
  s!"{seat}@{slug}"

def lead (slug : String) : String :=
  seatAddress slug "master"

def seats (slug : String) (count : ℕ) : List String :=
  (List.range' 1 count).map fun index => seatAddress slug (seat index)

def unnumbered : ℕ :=
  10000

-- `_number`
def number (slug address : String) : ℕ :=
  let suffix := s!"@{slug}".toList
  let head := "master-".toList
  let address := address.toList
  let stem := if suffix <:+ address then address.take (address.length - suffix.length) else address
  let found := if head <+: stem then stem.drop head.length else stem
  if found ≠ [] ∧ found.all Char.isDigit then found.foldl (fun n c => 10 * n + (c.toNat - '0'.toNat)) 0 else unnumbered

-- `_load`
def load (owners : Dict String String) (seat : String) : ℕ :=
  (owners.keys.filter fun item => owners.lookup item = some seat).card

-- `_handed`
def handOver (owned : Dict String String) (address front : String) : Dict String String :=
  owned.mapValues fun _ owner => if owner = address then front else owner

section Assign

variable (phases seatList : List String)

-- A phase keeps a seat that still exists.
def kept (previous : Dict String String) : Dict String String :=
  previous.select fun phase owner => phase ∈ phases ∧ owner ∈ seatList

-- The seat that owns fewest, the first one of several.
def fewest (owners : Dict String String) : Option String :=
  seatList.argmin fun seat => toLex (load owners seat, seatList.idxOf seat)

def place (owners : Dict String String) : List String → Dict String String
  | []              => owners
  | phase :: phases =>
    if (owners.lookup phase).isSome then place owners phases
    else match fewest seatList owners with
      | some seat => place (owners.insert phase seat) phases
      | none      => place owners phases

def movable (handed : Finset String) (owners : Dict String String) (added : String) : List String :=
  phases.filter fun phase => phase ∉ handed ∧ owners.lookup phase ≠ some added

-- The busiest seat of those that own the given phases.
def busiest (owners : Dict String String) (movable : List String) : Option String :=
  (movable.filterMap owners.lookup).argmax fun seat => toLex (load owners seat, OrderDual.toDual (seatList.idxOf seat))

-- The added seat takes the last movable phase of the busiest seat, so many times.
def take (handed : Finset String) (added : String) : ℕ → Dict String String → Dict String String
  | 0,     owners => owners
  | n + 1, owners =>
    let found := movable phases handed owners added
    match (busiest seatList owners found).bind fun seat => (found.filter (owners.lookup · = some seat)).getLast? with
    | some phase => take handed added n (owners.insert phase added)
    | none       => owners

def assign (previous : Dict String String) (known : List String) (handed : Finset String) : Dict String String :=
  let owners := place seatList (kept phases seatList previous) phases
  let share := phases.length / seatList.length
  let owners := (seatList.filter (· ∉ known)).foldl
    (fun owners added => take phases seatList handed added (share - load owners added) owners) owners
  owners.restrict (· ∈ phases)

end Assign

-- `hive_targets`
def hiveTargets (hives : Dict String String) (current : List String) : Dict String String :=
  hives.select fun _ owner => owner ∈ current

end Masters

-- The table of the master seats of one swarm, a hash that several processes read and write one command at a time. Only
-- a retirement and the saving of owners watch it.

namespace Masters

-- `version` counts the writes, which is what a watch sees.
structure Table where
  count   : Option ℕ
  owners  : Dict String String
  known   : List String
  retired : List String
  hives   : Dict String String
  handed  : Finset String
  version : ℕ

def Table.counted (t : Table) (slug : String) : List String :=
  seats slug (t.count.getD 1)

-- What a call of `owners` has read so far, field by field.
structure Reading where
  owners  : Dict String String
  known   : List String
  retired : List String
  count   : Option ℕ
  hives   : Dict String String
  handed  : Finset String

def Reading.nothing : Reading :=
  ⟨∅, [], [], none, ∅, ∅⟩

inductive Field
  | owners
  | known
  | retired
  | count
  | hives
  | handed
  deriving DecidableEq

def Field.read (t : Table) (r : Reading) : Field → Reading
  | .owners  => { r with owners := t.owners }
  | .known   => { r with known := t.known }
  | .retired => { r with retired := t.retired }
  | .count   => { r with count := t.count }
  | .hives   => { r with hives := t.hives }
  | .handed  => { r with handed := t.handed }

def Field.next : Field → Option Field
  | .owners  => some .known
  | .known   => some .retired
  | .retired => some .count
  | .count   => some .hives
  | .hives   => some .handed
  | .handed  => none

namespace Reading

variable (slug : String) (phases : List String) (r : Reading)

def current : List String :=
  (seats slug (r.count.getD 1)).filter (· ∉ r.retired)

def assigned : Dict String String :=
  assign phases (r.current slug) r.owners r.known r.handed

-- There is nothing to save.
def Saved : Prop :=
  r.assigned slug phases = r.owners ∧ r.current slug = r.known

instance : Decidable (r.Saved slug phases) :=
  inferInstanceAs (Decidable (_ ∧ _))

-- `{**owners, **hives}`
def answer (item : String) : Option String :=
  let hive := if "hives/".toList <+: item.toList then some (String.ofList (item.toList.drop 6)) else none
  (hive.bind (hiveTargets r.hives (r.current slug)).lookup).or ((r.assigned slug phases).lookup item)

end Reading

inductive Call
  | setCount (count : ℕ)
  | ownHive (hive owner : String)
  | owners (phases : List String)

-- Where a call is: what its next command is.
inductive Stage
  | count (count : ℕ)
  | retired (count : ℕ)
  | keep (count : ℕ) (retired : List String)
  | check (hive owner : String)
  | hives (hive owner : String)
  | own (hive owner : String) (hives : Dict String String)
  | watch (phases : List String)
  | read (phases : List String) (version : ℕ) (reading : Reading) (field : Field)
  | save (phases : List String) (version : ℕ) (reading : Reading)

-- What a call of `owners` returns.
structure Answer where
  phases : List String
  owner  : String → Option String

structure State where
  table : Table
  calls : ℕ → Option Stage

def empty : State where
  table := ⟨none, ∅, [], [], ∅, ∅, 0⟩
  calls := fun _ => none

-- The retired seats that a count keeps: one above it is not counted any more.
def keeps (slug : String) (count : ℕ) (retired : List String) : List String :=
  retired.filter fun address => 1 < number slug address ∧ number slug address ≤ count

namespace Table

variable (slug : String) (t : Table)

-- Nothing is written where there is nothing to delete.
def keepRetired (held : List String) : Table :=
  if held = [] ∧ t.retired = [] then t else { t with retired := held, version := t.version + 1 }

def retire (address : String) : Table :=
  { t with
    owners  := handOver t.owners address (lead slug)
    hives   := handOver t.hives address (lead slug)
    retired := if address ∈ t.retired then t.retired else t.retired ++ [address]
    handed  := t.handed ∪ t.owners.keys.filter fun phase => t.owners.lookup phase = some address
    version := t.version + 1 }

def save (phases : List String) (r : Reading) : Table :=
  { t with owners := r.assigned slug phases, known := r.current slug, version := t.version + 1 }

end Table

namespace State

variable (slug : String) (s : State) (id : ℕ)

def move (stage : Option Stage) (table : Table) : State where
  table := table
  calls := Function.update s.calls id stage

-- The next command of a call, and what the call returns if it ends with it.
def turn (stage : Stage) : State × Option Answer :=
  let t := s.table
  match stage with
  | .count n                    => (s.move id (some (.retired n)) { t with count := some n, version := t.version + 1 }, none)
  | .retired n                  => (s.move id (some (.keep n t.retired)) t, none)
  | .keep n retired             => (s.move id none (t.keepRetired (keeps slug n retired)), none)
  | .check hive owner           =>
    if owner ∈ t.counted slug then (s.move id (some (.hives hive owner)) t, none) else (s.move id none t, none)
  | .hives hive owner           => (s.move id (some (.own hive owner t.hives)) t, none)
  | .own hive owner hives       =>
    (s.move id none { t with hives := hives.insert hive owner, version := t.version + 1 }, none)
  | .watch phases               => (s.move id (some (.read phases t.version .nothing .owners)) t, none)
  | .read phases version r field =>
    let r := field.read t r
    match field.next with
    | some next => (s.move id (some (.read phases version r next)) t, none)
    | none      =>
      if r.Saved slug phases then (s.move id none t, some ⟨phases, r.answer slug phases⟩)
      else (s.move id (some (.save phases version r)) t, none)
  | .save phases version r      =>
    if version = t.version then (s.move id none (t.save slug phases r), some ⟨phases, r.answer slug phases⟩)
    else (s.move id (some (.watch phases)) t, none)

end State

inductive Event
  | call (id : ℕ) (call : Call)
  | turn (id : ℕ)
  | retire (address : String)
  -- a save that kept clashing, or a crash
  | stop (id : ℕ)

def Call.begin_ : Call → Option Stage
  | .setCount n         => if n < 1 then none else some (.count n)
  | .ownHive hive owner => some (.check hive owner)
  | .owners phases      => some (.watch phases)

def step (slug : String) (s : State) : Event → State
  | .call id call   => if (s.calls id).isSome then s else s.move id call.begin_ s.table
  | .turn id        => (s.calls id).elim s fun stage => (s.turn slug id stage).1
  | .retire address => { s with table := s.table.retire slug address }
  | .stop id        => s.move id none s.table

end Masters
