import Agentihooks.Claiming.Focus

-- Which holders are asked to hand off when an urgent or focused task waits for a seat of a full lane.

namespace Preempt

-- Ten minutes and thirty minutes, in milliseconds.
def answerMs : ℕ := 10 * 60000
def waitMs   : ℕ := 30 * 60000

structure Task extends Focus.Task where
  rank     : Option String
  profile  : Option String
  followUp : Bool
  deriving DecidableEq

structure Agent where
  name      : String
  task      : String
  lane      : String
  startedAt : ℕ
  deriving DecidableEq

-- A placement refusal that a hive recorded.
structure Wait where
  lane   : String
  seenAt : ℕ
  deriving DecidableEq

-- What one pass reads of the ledger, the agents, the caps and the placement.
structure Call where
  rows     : String → Option Task
  freezes  : List Focus.Record
  graph    : Focus.Graph
  caps     : List (String × ℕ)
  agents   : List Agent
  holds    : Agent → Bool
  ready    : String → List Task
  nowMs    : ℕ
  refused  : String → Option Wait
  probe    : String → Task → String

structure Ask where
  lane    : String
  holder  : Agent
  waiting : String
  atMs    : ℕ
  deriving DecidableEq

-- The tasks that waited at the last pass, and for each name asked the waiting task and the time.
structure State where
  waiting : List String
  asked   : List (String × String × ℕ)
  deriving DecidableEq

def init : State := ⟨[], []⟩

-- A lane whose every seat is busy, with its claimable tasks in claim order and its live holders.
structure Full where
  lane    : String
  ready   : List Task
  holders : List Agent

def ranks : List String := ["urgent", "high", "normal", "low"]

def generated (task : Task) : Bool :=
  task.profile = some "documentation" ∧ task.followUp

-- The place of a task's rank, the urgent one first.
def order (task : Task) : ℕ :=
  match task.rank with
  | some rank => if rank ∈ ranks then ranks.idxOf rank else if generated task then 3 else 2
  | none      => if generated task then 3 else 2

-- A place is before another one.
def Below (p q : ℕ × ℕ) : Prop :=
  p.1 < q.1 ∨ p.1 = q.1 ∧ p.2 < q.2

instance (p q : ℕ × ℕ) : Decidable (Below p q) :=
  inferInstanceAs (Decidable (p.1 < q.1 ∨ p.1 = q.1 ∧ p.2 < q.2))

namespace Call

variable (c : Call)

def focused (task : Task) : Bool :=
  let chain := Focus.ancestry task.toTask c.graph
  c.freezes.any fun r => r.verb = "focus" ∧ Focus.covers r.target task.toTask chain

-- An unknown task counts as preferred.
def preferred (task : Option Task) : Bool :=
  match task with
  | none      => true
  | some task => task.id = "" ∨ task.rank = some "urgent" ∨ c.focused task

def full : List Full :=
  c.caps.filterMap fun (lane, cap) =>
    let holders := c.agents.filter fun a => a.lane = lane ∧ c.holds a
    if cap ≠ 0 ∧ cap ≤ holders.length then some ⟨lane, c.ready lane, holders⟩ else none

def holding : List String :=
  c.full.flatMap fun full => full.holders.map (·.name)

def pending (asked : List (String × String × ℕ)) (task : String) : Bool :=
  asked.any fun entry => entry.2.1 = task ∧ c.nowMs < entry.2.2 + answerMs

def turnedAway (lane : String) (task : Task) : Bool :=
  match c.refused task.id with
  | none      => false
  | some wait => wait.lane = lane ∧ c.nowMs < wait.seenAt + waitMs

-- The rank of a holder's task, and then when the holder started.
def place (a : Agent) : ℕ × ℕ :=
  (((c.rows a.task).map order).getD 0, a.startedAt)

-- The first of the lowest ranked, and of those the one started last.
def lowest (best : Option Agent) (a : Agent) : Option Agent :=
  match best with
  | none   => some a
  | some b =>
    if Below (c.place b) (c.place a) then some a else some b

def victim (holders : List Agent) : Option Agent :=
  (holders.filter fun a => ¬ c.preferred (c.rows a.task)).foldl c.lowest none

end Call

-- What a pass has done so far.
structure Pass where
  waiting : List String
  asked   : List (String × String × ℕ)
  asks    : List Ask

variable (c : Call) (s : State)

-- One preferred task of a full lane.
def turn (full : Full) (pass : Pass) (task : Task) : Pass :=
  let noted := { pass with waiting := pass.waiting ++ [task.id] }
  if task.id ∉ s.waiting ∨ c.pending pass.asked task.id then noted
  else if c.turnedAway full.lane task then noted
  else
    match c.victim (full.holders.filter fun a => a.name ∉ pass.asked.map Prod.fst) with
    | none   => noted
    | some a =>
      if c.probe full.lane task ≠ "" then noted
      else { noted with
        asked := pass.asked ++ [(a.name, task.id, c.nowMs)]
        asks  := pass.asks ++ [⟨full.lane, a, task.id, c.nowMs⟩] }

def lane (pass : Pass) (full : Full) : Pass :=
  (full.ready.filter fun task => c.preferred (some task)).foldl (turn c s full) pass

def kept : List (String × String × ℕ) :=
  s.asked.filter fun entry => entry.1 ∈ c.holding

def pass : Pass :=
  c.full.foldl (lane c s) ⟨[], kept c s, []⟩

def step (s : State) (c : Call) : State :=
  ⟨(pass c s).waiting, (pass c s).asked⟩

def asks (s : State) (c : Call) : List Ask :=
  (pass c s).asks

end Preempt
