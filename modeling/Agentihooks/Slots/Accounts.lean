import Mathlib.Algebra.BigOperators.Group.Multiset.Basic
import Mathlib.Data.Finset.Max
import Mathlib.Data.Int.Order.Basic
import Mathlib.Data.List.Sort
import Agentihooks.Library.Finmap
import Agentihooks.Library.Run
import Agentihooks.Objects.Rows

-- Account slots: the hives share one document for each account of a harness, with the executions that hold one of its
-- sessions and what each hive last reported of it. Every change of a document is one compare-and-set.

namespace Slots

def ttlMs : ℤ := 45000

inductive Pane
  | working
  | running
  | idle
  | waiting
  | blocked
  | exited
  | dead
  | other
  deriving DecidableEq

namespace Pane

def live : Pane → Bool
  | working | running | idle | waiting | blocked => true
  | exited | dead | other                        => false

def ended : Pane → Bool
  | exited | dead => true
  | _             => false

end Pane

-- A harness and one of its accounts.
abbrev Account := String × String

-- `since` is the reading at which the slot was taken.
structure Holder where
  hive      : String
  expiresMs : ℤ
  since     : ℤ
  deriving DecidableEq

structure Hive where
  cap       : ℤ
  sessions  : ℤ
  observed  : List String
  expiresMs : ℤ
  deriving DecidableEq

-- Sessions that are not those of a holder.
def Hive.manual (hive : Hive) : ℤ :=
  max (hive.sessions - hive.observed.length) 0

structure Value where
  holders : Dict String Holder
  hives   : Dict String Hive

structure Slot where
  harness : String
  account : String
  cap     : ℤ
  deriving DecidableEq

def Slot.key (slot : Slot) : Account :=
  (slot.harness, slot.account)

structure Report where
  slots      : List Slot
  sessions   : Dict String ℤ
  executions : Dict String (List String)

namespace Value

variable (v : Value)

def empty : Value :=
  ⟨∅, ∅⟩

def live (now : ℤ) : Value where
  holders := v.holders.select fun _ holder => now < holder.expiresMs
  hives   := v.hives.select fun _ hive => now < hive.expiresMs

def used : ℤ :=
  v.holders.keys.card + (v.hives.entries.map (·.2.manual)).sum

-- The smallest cap of the hives.
def cap : WithTop ℤ :=
  (v.hives.entries.map (·.2.cap)).toFinset.min

end Value

structure Heartbeat where
  hive       : String
  report     : Report
  executions : Dict String Pane

namespace Heartbeat

variable (b : Heartbeat)

def owns (holder : Holder) : Prop :=
  holder.hive = b.hive

instance (holder : Holder) : Decidable (b.owns holder) :=
  inferInstanceAs (Decidable (_ = _))

def saysLive (execution : String) : Prop :=
  (b.executions.lookup execution).any Pane.live = true

instance (execution : String) : Decidable (b.saysLive execution) :=
  inferInstanceAs (Decidable (_ = true))

def saysEnded (execution : String) : Prop :=
  (b.executions.lookup execution).any Pane.ended = true

instance (execution : String) : Decidable (b.saysEnded execution) :=
  inferInstanceAs (Decidable (_ = true))

-- The accounts that the hive has reported, in order.
def remember (accounts : List Account) : List Account :=
  (accounts ++ b.report.slots.map Slot.key).dedup.insertionSort fun x y => x.1 < y.1 ∨ x.1 = y.1 ∧ x.2 ≤ y.2

def holders (now : ℤ) (v : Value) : Dict String Holder :=
  ((v.live now).holders.select fun x holder => ¬(b.owns holder ∧ b.saysEnded x)).mapValues fun x holder =>
    if b.owns holder ∧ b.saysLive x then { holder with expiresMs := now + ttlMs } else holder

def observed (a : Account) (holders : Dict String Holder) : List String :=
  ((b.report.executions.lookup s!"{a.1}:{a.2}").getD []).filter fun x => (holders.lookup x).any fun h => b.owns h

-- The last slot that the report has for the account.
def slot (a : Account) : Option Slot :=
  b.report.slots.reverse.find? (·.key = a)

def renew (a : Account) (now : ℤ) (v : Value) : Value :=
  let holders := b.holders now v
  let hives := (v.live now).hives
  if (b.slot a).isSome ∨ holders.Exists fun _ holder => b.owns holder then
    let cap := (b.slot a).elim 0 Slot.cap
    let sessions := (b.report.sessions.lookup s!"{a.1}:{a.2}").getD 0
    ⟨holders, hives.insert b.hive ⟨cap, sessions, b.observed a holders, now + ttlMs⟩⟩
  else
    ⟨holders, hives.erase b.hive⟩

end Heartbeat

-- `launches`: the take is that of a launch.
structure Take where
  hive      : String
  execution : String
  harness   : String
  preferred : Option String
  report    : Report
  launches  : Bool

namespace Take

variable (t : Take)

def heartbeat : Heartbeat :=
  ⟨t.hive, t.report, ∅⟩

-- The slots that the take walks through.
def slots : List Slot :=
  t.report.slots.filter fun slot => slot.harness = t.harness ∧ t.preferred.all (slot.account = ·)

-- No answer: `min` of no hives raises.
def reserve (now : ℤ) (v : Value) : Option (Bool × Value) :=
  let v := v.live now
  match v.holders.lookup t.execution with
  | some holder => some (holder.hive = t.hive, v)
  | none        =>
    match v.cap with
    | ⊤         => none
    | (cap : ℤ) =>
      if cap ≤ v.used then some (false, v)
      else some (true, { v with holders := v.holders.insert t.execution ⟨t.hive, now + ttlMs, now⟩ })

end Take

structure Release where
  hive      : String
  execution : String
  account   : Account

def Release.remove (r : Release) (v : Value) : Value :=
  if (v.holders.lookup r.execution).any (·.hive = r.hive) then { v with holders := v.holders.erase r.execution } else v

inductive Operation
  | heartbeat (b : Heartbeat)
  | take (t : Take)
  | release (r : Release)

-- The heartbeat that an operation starts with.
def Operation.heartbeat? : Operation → Option Heartbeat
  | .heartbeat b => some b
  | .take t      => some t.heartbeat
  | .release _   => none

-- Where a call is: what its next change is.
inductive Stage
  | remember
  | renew (accounts : List Account)
  | walk (slots : List Slot)
  | invoke (account : String)
  | remove (r : Release)
  | removed
  | done (account : Option String)
  | raised

-- What a take came to.
def Stage.result : Stage → Option (Option String)
  | .invoke account => some (some account)
  | .done account   => some account
  | _               => none

-- `began` is the reading at the start of the call. `held` are the accounts of its harness that the execution of a take
-- has held since then without a break.
structure Call where
  operation : Operation
  stage     : Stage
  began     : ℤ
  held      : Finset Account

-- `accounts` are those each hive has reported. `reported` is for each hive and execution the latest start of a completed
-- heartbeat that said it is live.
structure State where
  docs     : Dict Account Value
  accounts : String → List Account
  clock    : ℤ
  calls    : ℕ → Option Call
  reported : String → String → WithBot ℤ

namespace State

variable (s : State)

def value (a : Account) : Value :=
  (s.docs.lookup a).getD .empty

def holds (execution : String) (a : Account) : Prop :=
  ∃ holder ∈ (s.value a).holders.lookup execution, s.clock < holder.expiresMs

instance (execution : String) (a : Account) : Decidable (s.holds execution a) :=
  decidable_of_iff (((s.value a).holders.lookup execution).any (s.clock < ·.expiresMs)) <| by
    simp [holds, Option.any_eq_true]

def write (a : Account) (v : Value) : State :=
  { s with docs := s.docs.insert a v }

def move (id : ℕ) (c : Call) (stage : Stage) : State :=
  { s with calls := Function.update s.calls id (some { c with stage }) }

-- The accounts of a harness that an execution holds.
def held (execution harness : String) : Finset Account :=
  s.docs.keys.filter fun a => a.1 = harness ∧ s.holds execution a

def complete (b : Heartbeat) (began : ℤ) : State :=
  { s with reported := fun hive x =>
      if hive = b.hive ∧ b.saysLive x then max (s.reported hive x) began else s.reported hive x }

def begin_ (id : ℕ) (operation : Operation) : State :=
  let stage : Stage := match operation with
    | .release r => .remove r
    | _          => .remember
  let held := match operation with
    | .take t => s.held t.execution t.harness
    | _       => ∅
  { s with calls := Function.update s.calls id (some ⟨operation, stage, s.clock, held⟩) }

-- The next change of a call.
def turn (id : ℕ) (c : Call) : State :=
  match c.operation, c.stage with
  | op, .remember =>
    match op.heartbeat? with
    | some b =>
      let accounts := b.remember (s.accounts b.hive)
      { s.move id c (.renew accounts) with accounts := Function.update s.accounts b.hive accounts }
    | none   => s
  | op, .renew (a :: rest) =>
    match op.heartbeat? with
    | some b => (s.write a (b.renew a s.clock (s.value a))).move id c (.renew rest)
    | none   => s
  | .heartbeat b, .renew []     => (s.complete b c.began).move id c (.done none)
  | .take t, .renew []          => s.move id c (.walk t.slots)
  | .take _, .walk []           => s.move id c (.done none)
  | .take t, .walk (slot :: rest) =>
    match t.reserve s.clock (s.value slot.key) with
    | none            => s.move id c .raised
    | some (false, v) => (s.write slot.key v).move id c (.walk rest)
    | some (true, v)  =>
      (s.write slot.key v).move id c (if t.launches then .invoke slot.account else .done (some slot.account))
  | _, .remove r          => (s.write r.account (r.remove (s.value r.account))).move id c .removed
  | _, _                  => s

-- What `invoke` came to: the slot stays taken unless it failed for good.
def answer (id : ℕ) (c : Call) (failed : Bool) : State :=
  match c.operation, c.stage with
  | .take t, .invoke account =>
    s.move id c (if failed then .remove ⟨t.hive, t.execution, (t.harness, account)⟩ else .done (some account))
  | _, _ => s

-- What the calls have held is what they still hold.
def refreshed : State :=
  { s with calls := fun id => (s.calls id).map fun c =>
      match c.operation with
      | .take t => { c with held := c.held.filter (s.holds t.execution) }
      | _       => c }

end State

inductive Event
  | tick (d : ℕ)
  | call (id : ℕ) (operation : Operation)
  | turn (id : ℕ)
  | answer (id : ℕ) (failed : Bool)
  -- a conflict at every attempt, or a crash
  | stop (id : ℕ)

def after (s : State) : Event → State
  | .tick d         => { s with clock := s.clock + d }
  | .call id op     => if (s.calls id).isSome then s else s.begin_ id op
  | .turn id        => (s.calls id).elim s (s.turn id)
  | .answer id fail => (s.calls id).elim s (s.answer id · fail)
  | .stop id        => { s with calls := Function.update s.calls id none }

def step (s : State) (e : Event) : State :=
  (after s e).refreshed

def start (clock : ℤ) : State where
  docs     := ∅
  accounts := fun _ => []
  clock    := clock
  calls    := fun _ => none
  reported := fun _ _ => ⊥

end Slots
