import Mathlib.Data.Int.Order.Basic
import Agentihooks.Library.Finmap
import Agentihooks.Library.Run
import Agentihooks.Objects.Rows

-- Pending admission: execution attempts that wait for a provider session hold reservations. A swarm's hash has a row
-- for each of its reservations, and one set that all swarms share has a place for it, scored by its deadline.

namespace Admission

structure Resources where
  memoryMib : ℤ
  cpuMillis : ℤ
  deriving DecidableEq

def Resources.fits (need capacity : Resources) : Prop :=
  need.memoryMib ≤ capacity.memoryMib ∧ need.cpuMillis ≤ capacity.cpuMillis

instance (need capacity : Resources) : Decidable (need.fits capacity) :=
  inferInstanceAs (Decidable (_ ∧ _))

structure Template where
  name     : String
  capacity : Resources
  deriving DecidableEq

structure Policy where
  globalCap : ℤ
  swarmCap  : ℤ
  ttlMs     : ℤ
  templates : List Template
  default   : Resources

-- What a task asks for, as the source's `int` reads it.
inductive Asked
  | unreadable
  | amounts (memoryMib cpuMillis : Option ℤ)

structure Task where
  id        : String
  resources : Asked

inductive Outcome
  | admitted
  | replayed
  | deferred
  | impossible
  | expired
  | activated
  | released
  deriving DecidableEq

structure Decision where
  task        : String
  outcome     : Outcome
  reservation : Option ℕ
  deadlineMs  : ℤ
  reason      : String
  deriving DecidableEq

def requested (task : Task) (default : Resources) : Option Resources :=
  match task.resources with
  | .unreadable         => none
  | .amounts memory cpu =>
    let need : Resources := ⟨memory.getD default.memoryMib, cpu.getD default.cpuMillis⟩
    if need.memoryMib ≤ 0 ∨ need.cpuMillis ≤ 0 then none else some need

def offered (templates : List Template) : String :=
  if templates = [] then "none"
  else "; ".intercalate <| templates.map fun t =>
    s!"{t.name} {t.capacity.memoryMib} MiB {t.capacity.cpuMillis} millicpu"

def impossible (id : String) (need : Resources) (templates : List Template) : Option String :=
  if ∃ t ∈ templates, need.fits t.capacity then none
  else some <| s!"task {id} requests {need.memoryMib} MiB memory and {need.cpuMillis} millicpu, more than every " ++
    s!"approved template ({offered templates}); lower the task resources or approve a larger template"

-- The task of a swarm.
abbrev Place := String × String

-- `overtaken`: since the row was written an admission has read a clock at or past its deadline.
structure Row where
  reservation : ℕ
  deadlineMs  : ℤ
  resources   : Resources
  overtaken   : Bool
  deriving DecidableEq

-- How a reservation ended.
structure Ended where
  slug        : String
  reservation : ℕ
  outcome     : Outcome
  deriving DecidableEq

-- `rows` are the hashes of all swarms and `places` is the set they share. `fresh` is the next reservation, `clock` the
-- latest reading of an admission, and `ended` what has become of the reservations that are no longer stored.
structure State where
  rows   : Dict Place Row
  places : Dict Place ℤ
  totals : String → Outcome → ℕ
  fresh  : ℕ
  clock  : ℤ
  ended  : Multiset Ended

def start (clock : ℤ) : State where
  rows   := ∅
  places := ∅
  totals := fun _ _ => 0
  fresh  := 0
  clock  := clock
  ended  := 0

structure Admit where
  policy : Policy
  slug   : String
  tasks  : List Task
  slots  : ℤ
  nowMs  : ℤ

namespace Admit

variable (a : Admit) (s : State)

def live : Dict Place Row :=
  s.rows.restrict fun p => p.1 = a.slug ∧ (s.rows.lookup p).any (a.nowMs < ·.deadlineMs)

def expired : Dict Place Row :=
  s.rows.restrict fun p => p.1 = a.slug ∧ (s.rows.lookup p).any (·.deadlineMs ≤ a.nowMs)

-- The places that still count at the reading.
def across : Dict Place ℤ :=
  s.places.restrict fun p => (s.places.lookup p).any (a.nowMs < ·)

-- What an admission has decided to write so far.
structure Progress where
  written : Dict Place Row
  fresh   : ℕ

def full (mine across : ℕ) : Option String :=
  if a.policy.globalCap ≤ 0 ∨ a.policy.swarmCap ≤ 0 then some "distributed admission is set to zero"
  else if a.policy.swarmCap ≤ mine ∨ a.policy.globalCap ≤ across then
    some <| s!"pending cap reached: {mine} of {a.policy.swarmCap} pending attempts for this swarm, " ++
      s!"{across} of {a.policy.globalCap} across swarms"
  else if a.slots ≤ mine then
    some <| s!"provider slots reached: {mine} pending attempts already wait on {a.slots} free provider sessions"
  else none

def held (row : Row) (id : String) : Decision :=
  ⟨id, .replayed, some row.reservation, row.deadlineMs, ""⟩

def decide (p : Progress) (task : Task) : Decision × Progress :=
  match ((a.live s).lookup (a.slug, task.id)).or (p.written.lookup (a.slug, task.id)) with
  | some row => (held row task.id, p)
  | none     =>
    match requested task a.policy.default with
    | none      =>
      let reason := s!"task {task.id} has unreadable resources; " ++
        "set memory_mib and cpu_millis to positive integers"
      (⟨task.id, .impossible, none, 0, reason⟩, p)
    | some need =>
      match impossible task.id need a.policy.templates with
      | some reason => (⟨task.id, .impossible, none, 0, reason⟩, p)
      | none        =>
        let written := p.written.keys.card
        match a.full ((a.live s).keys.card + written) ((a.across s).keys.card + written) with
        | some reason => (⟨task.id, .deferred, none, 0, reason⟩, p)
        | none        =>
          let deadline := a.nowMs + a.policy.ttlMs
          (⟨task.id, .admitted, some p.fresh, deadline, ""⟩,
            ⟨p.written.insert (a.slug, task.id) ⟨p.fresh, deadline, need, false⟩, p.fresh + 1⟩)

def decideAll : List Task → Progress → List Decision × Progress
  | [],      p => ([], p)
  | t :: ts, p =>
    let (d, p)  := a.decide s p t
    let (ds, p) := decideAll ts p
    (d :: ds, p)

def outcome : List Decision × Progress :=
  a.decideAll s a.tasks ⟨∅, s.fresh⟩

def decisions : List Decision :=
  (a.outcome s).1

def written : Dict Place Row :=
  (a.outcome s).2.written

def count : Outcome → ℕ
  | .replayed => 0
  | .expired  => (a.expired s).keys.card
  | outcome   => ((a.decisions s).filter (·.outcome = outcome)).length

-- Rows that the admission leaves where they are.
def kept : Dict Place Row :=
  (s.rows.restrict (· ∉ (a.expired s).keys)).mapValues fun _ row =>
    { row with overtaken := row.overtaken || row.deadlineMs ≤ a.nowMs }

def after : State where
  rows   := a.written s ∪ a.kept s
  places := (a.written s).mapValues (fun _ row => row.deadlineMs) ∪ a.across s
  totals := Function.update s.totals a.slug fun outcome => s.totals a.slug outcome + a.count s outcome
  fresh  := (a.outcome s).2.fresh
  clock  := max s.clock a.nowMs
  ended  := s.ended + (a.expired s).entries.map fun row => ⟨a.slug, row.2.reservation, .expired⟩

end Admit

-- `activate` and `release`
structure End where
  slug        : String
  task        : String
  reservation : ℕ
  activated   : Bool

namespace End

variable (e : End) (s : State)

def place : Place :=
  (e.slug, e.task)

def outcome : Outcome :=
  if e.activated then .activated else .released

-- The row that the call ends, if it holds the reservation.
def row : Option Row :=
  (s.rows.lookup e.place).filter (·.reservation = e.reservation)

def after : State :=
  match e.row s with
  | none     => s
  | some row =>
    { s with
      rows   := s.rows.erase e.place
      places := s.places.erase e.place
      totals := Function.update s.totals e.slug fun outcome =>
        s.totals e.slug outcome + if outcome = e.outcome then 1 else 0
      ended  := ⟨e.slug, row.reservation, e.outcome⟩ ::ₘ s.ended }

end End

inductive Event
  | admission (a : Admit)
  | ending (e : End)

def step (s : State) : Event → State
  | .admission a => a.after s
  | .ending e    => e.after s

end Admission
