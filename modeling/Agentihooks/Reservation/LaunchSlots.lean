import Mathlib.Algebra.Ring.Int.Defs
import Agentihooks.Library.Finmap
import Agentihooks.Library.Run
import Agentihooks.Objects.Rows

-- Launch slots: how many sessions an account's slot holds, from what the hives report and from the rows of executions
-- that no hive reports yet. The launch script runs as one step; keys are gone once their lifetime is over.

namespace Reservation

inductive Stage
  | reserved
  | live
  | exited
  deriving DecidableEq

structure Row where
  slot    : String
  state   : Stage
  expires : ℤ
  deriving DecidableEq

-- What a hive says of its sessions.
structure Report where
  sessions   : Dict String ℤ
  executions : Dict String (List String)

structure State where
  rows     : Dict String Row
  launched : Finset String
  reports  : Dict String Report
  now      : ℤ

def start (now : ℤ) : State where
  rows     := ∅
  launched := ∅
  reports  := ∅
  now      := now

-- The lifetime of a row that is live or has exited.
def lifetime : ℤ :=
  45000

namespace State

variable (s : State) (heartbeats : List (String × ℤ)) (slot : String)

-- The reports of the hives that are live by the given heartbeats.
def liveReports : List Report :=
  heartbeats.filterMap fun (hive, heartbeat) =>
    if 0 < heartbeat ∧ s.now - heartbeat ≤ 90000 then s.reports.lookup hive else none

def sessions : ℤ :=
  ((s.liveReports heartbeats).map fun report => (report.sessions.lookup slot).getD 0).sum

def seen : List String :=
  (s.liveReports heartbeats).flatMap fun report => (report.executions.lookup slot).getD []

-- A row that counts although no hive reports it, and one that does not count although a hive still does.
def Counts (execution : String) : Prop :=
  (s.rows.lookup execution).any (fun row => row.slot = slot ∧ row.state ≠ .exited) ∧ execution ∉ s.seen heartbeats slot

def Leaves (execution : String) : Prop :=
  (s.rows.lookup execution).any (fun row => row.slot = slot ∧ row.state = .exited) ∧ execution ∈ s.seen heartbeats slot

instance (execution : String) : Decidable (s.Counts heartbeats slot execution) :=
  inferInstanceAs (Decidable (_ ∧ _))

instance (execution : String) : Decidable (s.Leaves heartbeats slot execution) :=
  inferInstanceAs (Decidable (_ ∧ _))

-- The previous reservation of the seat, if it is one of the slot that nothing has come of.
def replaced (previous : String) : Finset String :=
  if previous ∈ s.launched ∧ (s.rows.lookup previous).any (fun row => row.slot = slot ∧ row.state = .reserved) ∧
      previous ∉ s.seen heartbeats slot then {previous} else ∅

def used (previous : String) : ℤ :=
  s.sessions heartbeats slot +
    ((s.launched \ s.replaced heartbeats slot previous).filter fun id => s.Counts heartbeats slot id).card -
    (s.launched.filter fun id => s.Leaves heartbeats slot id).card

-- Mode `reserve`: whether the slot is granted, and the count.
def reserve (execution : String) (cap ttlMs : ℤ) (previous : String) : (Bool × ℤ) × State :=
  match s.rows.lookup execution with
  | some held =>
    if held.slot ≠ slot ∨ held.state = .exited then ((false, s.sessions heartbeats slot), s)
    else ((true, s.sessions heartbeats slot), s)
  | none      =>
    let used := s.used heartbeats slot previous
    let launched := s.launched.filter fun id => (s.rows.lookup id).isSome
    if cap ≤ used then ((false, used), { s with launched })
    else
      let replaced := s.replaced heartbeats slot previous
      ((true, used), { s with
        rows     := (s.rows.restrict (· ∉ replaced)).insert execution ⟨slot, .reserved, s.now + ttlMs⟩
        launched := insert execution (launched \ replaced) })

-- `reserve_reading`: bounds that are not allowed raise.
def reserveReading (execution : String) (cap ttlMs : ℤ) (previous : String) : Option ((Bool × ℤ) × State) :=
  if cap < 0 ∨ ¬(0 < ttlMs ∧ ttlMs ≤ 300000) then none
  else some (s.reserve heartbeats slot execution cap ttlMs previous)

-- Mode `ack`.
def acknowledge (execution : String) : Bool × State :=
  match s.rows.lookup execution with
  | some held =>
    match held.state with
    | .exited   => (false, s)
    | .live     => (true, s)
    | .reserved =>
      (true, { s with rows := s.rows.insert execution { held with state := .live, expires := s.now + lifetime } })
  | none      =>
    if slot = "" then (false, s)
    else (true, { s with
      rows     := s.rows.insert execution ⟨slot, .live, s.now + lifetime⟩
      launched := insert execution s.launched })

-- Mode `release`.
def release (execution : String) : Bool × State :=
  match s.rows.lookup execution with
  | some held =>
    if held.state = .exited then (false, s)
    else (true, { s with rows := s.rows.insert execution { held with state := .exited, expires := s.now + lifetime } })
  | none      => (false, s)

def expire : State :=
  { s with rows := s.rows.select fun _ row => s.now < row.expires }

-- `pexpire`, where a refresh has read a live row before.
def extend (execution : String) (ttlMs : ℤ) : State :=
  match s.rows.lookup execution with
  | some row => { s with rows := s.rows.insert execution { row with expires := s.now + ttlMs } }.expire
  | none     => s

-- The slot's count: sessions reported, rows neither exited nor reported, less exited rows still reported.
def count : ℤ :=
  s.sessions heartbeats slot + (s.rows.keys.filter fun id => s.Counts heartbeats slot id).card -
    (s.rows.keys.filter fun id => s.Leaves heartbeats slot id).card

end State

inductive Event
  | reserve (heartbeats : List (String × ℤ)) (slot execution : String) (cap ttlMs : ℤ) (previous : String)
  | acknowledge (execution slot : String)
  | release (execution : String)
  | extend (execution : String) (ttlMs : ℤ)
  | report (hive : String) (report : Option Report)
  | pass (ms : ℕ)

def step (s : State) : Event → State
  | .reserve heartbeats slot execution cap ttlMs previous =>
    ((s.reserveReading heartbeats slot execution cap ttlMs previous).map Prod.snd).getD s
  | .acknowledge execution slot                           => (s.acknowledge slot execution).2
  | .release execution                                    => (s.release execution).2
  | .extend execution ttlMs                               => s.extend execution ttlMs
  | .report hive (some report)                            => { s with reports := s.reports.insert hive report }
  | .report hive none                                     => { s with reports := s.reports.erase hive }
  | .pass ms                                              => { s with now := s.now + ms }.expire

end Reservation
