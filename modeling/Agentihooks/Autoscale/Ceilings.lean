import Mathlib.Algebra.Ring.Nat
import Mathlib.Data.List.MinMax
import Mathlib.Data.List.Sort
import Mathlib.Data.String.Basic
import Agentihooks.Library.Run

-- The ceilings that the autoscaler decides on, each decision computed from the one before.

namespace Autoscale

-- In the order in which they are given seats.
inductive Lane
  | plan
  | ci
  | eng
  deriving DecidableEq

def lanes : List Lane :=
  [.plan, .ci, .eng]

abbrev Counts := Lane → ℕ

def total (counts : Counts) : ℕ :=
  counts .plan + counts .ci + counts .eng

def passMs : ℤ := 60000
def slackMs : ℤ := passMs / 2
def raiseMs : ℤ := 2 * passMs

-- `elapsed.reached`
def reached (elapsedMs limitMs : ℤ) : Bool :=
  elapsedMs + slackMs ≥ limitMs

-- `elapsed.anchored`
def anchored (nowMs : ℤ) (counted : ℕ) : ℤ :=
  nowMs - counted * passMs

-- The ceilings so far, and the seats that are left for them.
structure Spread where
  ceilings : Counts
  room     : ℕ

-- A lane gets what it wants of the room.
def Spread.give (s : Spread) (wanted : Counts) (lane : Lane) : Spread where
  ceilings := Function.update s.ceilings lane (s.ceilings lane + min s.room (wanted lane))
  room     := s.room - min s.room (wanted lane)

section Ceilings

variable (live demand : Counts)

-- `bool(demand.get(lane))`
def asking (lane : Lane) : ℕ :=
  if demand lane = 0 then 0 else 1

-- The lanes that may take another seat.
def ready (ceilings : Counts) : List Lane :=
  lanes.filter fun lane => ceilings lane < live lane + demand lane

-- A pass of the loop, unless it ends.
def pass (s : Spread) : Option Spread :=
  if s.room = 0 then none
  else ((ready live demand s.ceilings).argmin s.ceilings).map fun lane => s.give (fun _ => 1) lane

-- The first passes of the loop.
def loop : ℕ → Spread → Spread
  | 0, s          => s
  | passes + 1, s =>
    match pass live demand s with
    | some s => loop passes s
    | none   => s

-- The spread before the loop.
def seated (room : ℕ) : Spread :=
  lanes.foldl (fun s lane => s.give (asking demand) lane) (lanes.foldl (fun s lane => s.give live lane) ⟨fun _ => 0, room⟩)

-- `_ceilings`
def ceilings (room : ℕ) : Counts :=
  let s := seated live demand room
  (loop live demand s.room s).ceilings

end Ceilings

structure PendingRaise where
  target : Option ℕ
  ticks  : ℕ
  since  : Option ℤ
  deriving DecidableEq

def PendingRaise.idle : PendingRaise :=
  ⟨none, 0, none⟩

structure Decision where
  ceilings     : Counts
  pendingRaise : PendingRaise
  reason       : String

structure Inputs where
  live      : Counts
  freeSeats : List (String × ℕ)
  hostRoom  : Option ℕ
  demand    : Counts
  nowMs     : ℤ

namespace Inputs

variable (i : Inputs)

def seats : ℕ :=
  (i.freeSeats.map Prod.snd).sum

def target : ℕ :=
  min 50 (total i.live + (match i.hostRoom with | none => i.seats | some room => min i.seats room))

-- One seat above its live agents for each lane with demand.
def minimum : ℕ :=
  total i.live + total (asking i.demand)

end Inputs

section Calculate

variable (previous : Option Decision) (i : Inputs)

-- What the ceilings came to before.
def current : ℕ :=
  match previous with
  | some decision => total decision.ceilings
  | none          => total i.live

def prior : PendingRaise :=
  match previous with
  | some decision => decision.pendingRaise
  | none          => .idle

def since : ℤ :=
  let prior := prior previous
  if prior.ticks = 0 then i.nowMs else prior.since.getD (anchored i.nowMs prior.ticks)

def held : Bool :=
  ¬ reached (i.nowMs - since previous i) raiseMs

-- The seats that a raise is allowed, before the minimum.
def raised : ℕ :=
  if i.target ≤ current previous i then i.target
  else if held previous i then current previous i
  else min i.target (current previous i + 2)

def pending : PendingRaise :=
  if i.target ≤ current previous i ∨ raised previous i = i.target then .idle
  else ⟨some i.target, min ((prior previous).ticks + 1) 3, some (since previous i)⟩

def allowed : ℕ :=
  max (raised previous i) (min i.target i.minimum)

def reason (allocated : ℕ) : String :=
  let harnesses := (i.freeSeats.insertionSort fun x y => x.1 ≤ y.1).map fun (harness, seats) => s!"{harness} {seats}"
  let host      := match i.hostRoom with | none => "unknown" | some room => toString room
  let listed    := ", ".intercalate harnesses
  let opening   := s!"Quota seats {i.seats} ({listed}); host room {host}; ceiling {allocated} of {i.target}"
  let rest      :=
    if allocated < i.target ∧ total i.live + total i.demand ≤ allocated then
      s!"; capped by ready work eng {i.demand .eng}, ci {i.demand .ci}, plan {i.demand .plan}"
    else if allowed previous i < i.target then
      if held previous i then s!"; raise held at tick {(pending previous i).ticks} of 3"
      else "; raise held by the two seat per tick limit"
    else ""
  opening ++ rest ++ "."

def calculate : Decision :=
  let ceilings := ceilings i.live i.demand (allowed previous i)
  ⟨ceilings, pending previous i, reason previous i (total ceilings)⟩

end Calculate

-- The decision before the first: none, or the ceilings that are configured.
inductive Start
  | none
  | configured (ceilings : Counts)

def Start.decision : Start → Option Decision
  | none                => Option.none
  | configured ceilings => some ⟨ceilings, .idle, ""⟩

def step (previous : Option Decision) (i : Inputs) : Option Decision :=
  some (calculate previous i)

end Autoscale
