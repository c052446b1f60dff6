import Agentihooks.Library.Run
import Agentihooks.Library.Text
import Mathlib.Data.List.Dedup
import Mathlib.Data.List.Sort
import Mathlib.Data.Int.Order.Basic
import Mathlib.Order.Basic

-- The passes over an operator's run window: the alert before the cutoff, the gate at the cutoff, and the final report.

namespace RunWindow

inductive Mode
  | enforce
  | observe
  | off
  deriving DecidableEq

namespace Mode

def label : Mode → String
  | enforce => "deny"
  | observe => "log only"
  | off     => "skip"

def effect : Mode → String
  | enforce => "stops new claims and asks every agent in flight to hand off"
  | observe => "logs the claims it would stop and the hand offs it would ask"
  | off     => "is skipped"

def next : Mode → String
  | enforce => "the agents in flight hand off and no new task starts until swarm set changes the window."
  | observe => "the gate only logged, so claims continue; set window-gate=deny to enforce the next cutoff."
  | off     => "the gate is off, so claims continue."

def short : Mode → String
  | enforce => "Agents in flight hand off and claims stay stopped."
  | observe => "Claims continue; window-gate=deny enforces the next cutoff."
  | off     => "Claims continue."

end Mode

-- The mode that the gates of a swarm choose for the window.
def configured (gates : String → Option String) : Mode :=
  let chosen := String.ofList ((Text.strip ((gates "window").getD "None")).toList.map Char.toLower)
  if chosen = "enforce" then .enforce else if chosen = "off" then .off else .observe

structure Window where
  startMs : Option ℤ
  minutes : Option ℕ
  deriving DecidableEq

def minuteMs     : ℤ := 60000
def alertMinutes : ℤ := 30
def textKept     : ℕ := 280

-- The start and the end of a window that has both its values.
def span (window : Window) : Option (ℤ × ℤ) :=
  match window.startMs, window.minutes with
  | some start, some minutes => some (start, start + minutes * minuteMs)
  | _, _                     => none

structure Row where
  id        : String
  state     : String
  title     : String
  claimedBy : String
  deriving DecidableEq

structure Agent where
  name  : String
  lane  : String
  state : String
  task  : String
  deriving DecidableEq

-- The marks of one window. The mode is recorded together with the cutoff.
structure Marks where
  window    : ℤ × ℤ
  elapsed   : ℤ
  remaining : ℤ
  alerted   : Option ℤ
  cutoff    : Option (ℤ × Mode)
  published : Option ℤ
  deriving DecidableEq

-- What a message is about.
inductive Ref
  | alert (bounds : ℤ × ℤ)
  | ask (bounds : ℤ × ℤ) (task : String)
  | final (bounds : ℤ × ℤ)
  deriving DecidableEq

-- A message in the inbox of a hive world.
structure Message where
  world   : String
  id      : String
  address : String
  text    : String
  ref     : Ref
  task    : String
  deriving DecidableEq

-- A notice of the ledger, with the window and the mode that its text speaks of.
structure Notice where
  window : ℤ × ℤ
  mode   : Mode
  text   : String
  deriving DecidableEq

structure LogRow where
  atMs   : ℤ
  gate   : String
  kind   : String
  agent  : String
  reason : String
  deriving DecidableEq

structure State where
  marks    : Option Marks
  messages : List Message
  notices  : List Notice
  log      : List LogRow

def init : State := ⟨none, [], [], []⟩

-- What a pass reads, besides the state: the settings, the ledger, the agents at the gate and at the report, and the
-- hive world that each address has its inbox in.
structure Pass where
  window   : Window
  gates    : String → Option String
  nowMs    : ℤ
  tasks    : List Row
  atGate   : List Agent
  atReport : List Agent
  watchdog : String
  home     : String → String

inductive Write
  | save (marks : Marks)
  | send (message : Message)
  | log (row : LogRow)
  | notify (notice : Notice)
  deriving DecidableEq

-- A second message of an id is refused in its world, also when the first one was closed.
def apply (s : State) : Write → State
  | .save marks    => { s with marks := some marks }
  | .send message  =>
    if ∃ m ∈ s.messages, m.world = message.world ∧ m.id = message.id then s
    else { s with messages := s.messages ++ [message] }
  | .log row       => { s with log := s.log ++ [row] }
  | .notify notice => { s with notices := s.notices ++ [notice] }

-- The swarm, the digest of a message's reference, and how a time reads.
variable (slug : String) (digest : String → String) (spoken : ℤ → String)

def reference (bounds : ℤ × ℤ) : String :=
  s!"{bounds.1}-{bounds.2}"

def Ref.text : Ref → String
  | .alert bounds    => s!"{slug}:run-window:alert:{reference bounds}"
  | .ask bounds task => s!"{slug}:run-window:{reference bounds}:{task}"
  | .final bounds    => s!"{slug}:run-window:final:{reference bounds}"

def count (n : ℤ) (noun : String) : String :=
  if n = 1 then s!"{n} {noun}" else s!"{n} {noun}s"

-- The last task of an id stands for it.
def row (tasks : List Row) (id : String) : Option Row :=
  tasks.reverse.find? (·.id = id)

-- The tasks that stand for their ids.
def rows (tasks : List Row) : List Row :=
  tasks.filter fun t => row tasks t.id = some t

def counts (tasks : List Row) : String :=
  let states := (rows tasks).map (·.state)
  let found  := (states.dedup.insertionSort (· ≤ ·)).map fun state => s!"{states.count state} {state}"
  if found = [] then "none" else String.intercalate ", " found

def inFlight (tasks : List Row) (agents : List Agent) : List Agent :=
  agents.filter fun a =>
    a.lane ∈ ["eng", "ci", "plan"] ∧ a.state ≠ "finished" ∧
      (row tasks a.task).any fun r => r.state ∈ ["claimed", "pr"] ∧ r.claimedBy = a.name

def title (tasks : List Row) (id : String) : String :=
  ((row tasks id).map (·.title)).getD ""

def orNone (lines : List String) (sep none : String) : String :=
  if lines = [] then none else String.intercalate sep lines

def final (mode : Mode) (bounds : ℤ × ℤ) (tasks : List Row) (flying : List Agent) : String :=
  let named := flying.map fun a => Text.strip s!"{a.name} on {a.task} {title tasks a.task}"
  let read  := flying.map fun a => s!"- ledger:{slug}/tasks/{a.task}"
  s!"## Intent\nRun window on swarm {slug}, {spoken bounds.1} to {spoken bounds.2}, window gate {mode.label}.\n\n" ++
  s!"## Done\nTasks by state: {counts tasks}.\n\n" ++
  s!"## Stopped at\nIn flight at the cutoff: " ++ orNone named "; " "none" ++ ".\n\n" ++
  "## Decisions and promises\nOnly swarm set changes the window.\n\n" ++
  s!"## Next\n{mode.next}\n\n" ++
  "## Read first\n" ++ orNone read "\n" "None" ++ "\n\n" ++
  "<!-- handoff complete -->"

def noticeText (mode : Mode) (bounds : ℤ × ℤ) (tasks : List Row) (watchdog flying : String) : String :=
  s!"Run window ended {spoken bounds.2}, gate {mode.label}. Full handoff: {watchdog}. " ++
  s!"Tasks: {counts tasks}. In flight: {flying}. {mode.short}"

-- The agents are named where the text is kept whole, else counted.
def notice (mode : Mode) (bounds : ℤ × ℤ) (tasks : List Row) (flying : List Agent) (watchdog : String) : Notice :=
  let named := orNone (flying.map fun a => s!"{a.name} on {a.task}") ", " "none"
  let text  := noticeText spoken mode bounds tasks watchdog named
  ⟨bounds, mode, if text.length ≤ textKept then text
    else noticeText spoken mode bounds tasks watchdog (count flying.length "agent")⟩

def sendOnce (p : Pass) (address text : String) (ref : Ref) (task : String) : Write :=
  .send ⟨p.home address, digest (ref.text slug), address, text, ref, task⟩

def alert (p : Pass) (bounds : ℤ × ℤ) (minutes : ℤ) : Write :=
  let mode := configured p.gates
  sendOnce slug digest p s!"master@{slug}"
    (s!"The run window on swarm {slug} ends at {spoken bounds.2}, in " ++ count minutes "minute" ++
      s!". At the cutoff the window gate, set to {mode.label}, {mode.effect}, and the swarm publishes the final " ++
      "state to the ledger and the watchdog. Only swarm set changes the window. Close this item once you have looked.")
    (.alert bounds) ""

def ask (p : Pass) (bounds : ℤ × ℤ) (a : Agent) : Write :=
  sendOnce slug digest p a.name
    (s!"The run window on swarm {slug} ended at {spoken bounds.2}. Finish the step you are on, push any commits with " ++
      s!"agentihooks swarm {slug} publish, write a Handoff v2 for task {a.task}, run agentihooks swarm {slug} handoff " ++
      "<doc> and stop. No new task starts until swarm set changes the window.")
    (.ask bounds a.task) a.task

-- The hand-off asks and the row of the gate log, unless the log has the cutoff already.
def gate (mode : Mode) (s : State) (p : Pass) (bounds : ℤ × ℤ) : List Write :=
  let flying  := inFlight p.tasks p.atGate
  let opening := s!"The run window {spoken bounds.1} to {spoken bounds.2} ended: new claims stop and "
  let reason  := opening ++ count flying.length "agent" ++ " in flight hand off: " ++
    orNone (flying.map (·.name)) ", " "none" ++ "."
  let logged  := s.log.any fun row =>
    bounds.2 ≤ row.atMs ∧ row.gate = "window" ∧ opening.toList.isPrefixOf row.reason.toList
  (if mode = .enforce then flying.map (ask slug digest spoken p bounds) else []) ++
  if mode ≠ .off ∧ ¬ logged then
    [.log ⟨p.nowMs, "window", if mode = .enforce then "deny" else "observe", "swarm", reason⟩]
  else []

def publish (mode : Mode) (p : Pass) (bounds : ℤ × ℤ) : List Write :=
  let flying := inFlight p.tasks p.atReport
  [sendOnce slug digest p p.watchdog (final slug spoken mode bounds p.tasks flying) (.final bounds) "",
    .notify (notice spoken mode bounds p.tasks flying p.watchdog)]

-- The marks that a pass starts from: those of the window, or none of them yet.
def marksOf (s : State) (p : Pass) (bounds : ℤ × ℤ) : Marks :=
  let kept := (s.marks.filter (·.window = bounds)).getD ⟨bounds, 0, 0, none, none, none⟩
  { kept with
    elapsed   := max 0 ((p.nowMs - bounds.1) / minuteMs)
    remaining := max 0 ((bounds.2 - max p.nowMs bounds.1) / minuteMs) }

def report (marks : Marks) (mode : Mode) (p : Pass) (bounds : ℤ × ℤ) : List Write :=
  if marks.published.isSome then []
  else publish slug digest spoken mode p bounds ++ [.save { marks with published := some p.nowMs }]

def atCutoff (s : State) (p : Pass) (bounds : ℤ × ℤ) (marks : Marks) : List Write :=
  match marks.cutoff with
  | some (_, mode) => report slug digest spoken marks mode p bounds
  | none           =>
    let mode    := configured p.gates
    let decided := { marks with cutoff := some (p.nowMs, mode) }
    gate slug digest spoken mode s p bounds ++ .save decided :: report slug digest spoken decided mode p bounds

def beforeCutoff (p : Pass) (bounds : ℤ × ℤ) (marks : Marks) : List Write :=
  if p.nowMs + alertMinutes * minuteMs < bounds.2 ∨ marks.alerted.isSome then []
  else [alert slug digest spoken p bounds marks.remaining, .save { marks with alerted := some p.nowMs }]

-- The writes of a pass in their order.
def writes (s : State) (p : Pass) : List Write :=
  match span p.window with
  | none        => []
  | some bounds =>
    if p.nowMs < bounds.1 then []
    else
      let marks := marksOf s p bounds
      .save marks ::
        if p.nowMs < bounds.2 then beforeCutoff slug digest spoken p bounds marks
        else atCutoff slug digest spoken s p bounds marks

-- A pass that crashes after so many of its writes.
structure Cut where
  pass : Pass
  done : ℕ

def made (s : State) (c : Cut) : List Write :=
  (writes slug digest spoken s c.pass).take c.done

def step (s : State) (c : Cut) : State :=
  (made slug digest spoken s c).foldl apply s

-- Why no task is claimed, when the window ended under a mode that stops claims.
def claimsStopped (s : State) (window : Window) (gates : String → Option String) (nowMs : ℤ) : Option String :=
  match span window with
  | none        => none
  | some bounds =>
    if nowMs < bounds.2 then none
    else
      let decided := ((s.marks.filter (·.window = bounds)).bind (·.cutoff)).map Prod.snd
      if decided.getD (configured gates) = .enforce then
        some (s!"the run window ended at {spoken bounds.2}, no new claims until " ++ "swarm set changes the window")
      else none

end RunWindow
