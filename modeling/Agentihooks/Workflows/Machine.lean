import Agentihooks.Library.Run
import Agentihooks.Workflows.Schema

-- The start of a workflow and its advance from stage to stage. Whoever calls saves the state that comes back.

namespace Workflows

inductive Status
  | running
  | passed
  | exhausted
  deriving DecidableEq

def Status.name : Status → String
  | running   => "running"
  | passed    => "passed"
  | exhausted => "exhausted"

structure Notes where
  stage   : String
  outcome : Outcome
  outputs : Json
  deriving DecidableEq

structure State where
  stage      : Option String
  status     : Status
  iterations : ℕ
  visit      : ℕ
  runs       : Dict String ℕ
  outputs    : Dict String Json
  notes      : Option Notes
  action     : Option String

-- The answers to the exit checks: those of stages see the stage's outputs, that of the workflow sees all.
structure ExitCheck where
  stage    : String → Json → Bool
  workflow : String → Dict String Json → Bool

def start (w : Workflow) : State where
  stage      := some w.head
  status     := .running
  iterations := 0
  visit      := 0
  runs       := ∅
  outputs    := ∅
  notes      := none
  action     := none

def Outcome.loops : Outcome → Bool
  | pass            => false
  | retry | enhance => true

def checkAdvance (s : State) (stage outcome : String) : Except String Outcome :=
  if s.status ≠ .running then .error s!"the workflow is {s.status.name}"
  else if some stage ≠ s.stage then .error <| s!"{stage} is not the current stage " ++ s.stage.getD "None"
  else match Outcome.ofName outcome with
    | some o => .ok o
    | none   => .error <| s!"{outcome} is not one of " ++ ", ".intercalate (Outcome.all.map Outcome.name)

-- No outcome: the stage runs again.
def stageOutcome (current : Stage) (visit : ℕ) (outcome : Outcome) (outputs : Json) (check : ExitCheck) :
    Except String (Option Outcome) :=
  if current.iterations < visit then .error s!"{current.id} already ran its {current.iterations} iterations"
  else match current.exit with
    | none      => .ok outcome
    | some text =>
      if check.stage text outputs then .ok (some .pass)
      else .ok <| if visit < current.iterations then none else some outcome

def workflowExit (w : Workflow) (stage : String) (outcome : Option Outcome) (outputs : Dict String Json)
    (check : ExitCheck) : Bool :=
  (stagePass w.exit).elim (outcome = some .pass ∧ check.workflow w.exit outputs)
    fun id => id = stage ∧ outcome = some .pass

def finished (s : State) (status : Status) : State :=
  { s with status, stage := none }

def follow (w : Workflow) (current : Stage) (s : State) (outcome : Outcome) (outputs : Json) : Except String State :=
  match current.next outcome with
  | none        => .error s!"{current.id} has no {outcome.name} edge"
  | some target =>
    let s := if outcome.loops then
      { s with iterations := s.iterations + 1, notes := some ⟨current.id, outcome, outputs⟩ } else s
    if outcome.loops ∧ w.maxIterations ≤ s.iterations then
      .ok (finished { s with action := some w.onExhausted } .exhausted)
    else if target = exit then .ok (finished s .passed)
    else .ok { s with visit := if target ≠ current.id then 0 else s.visit, stage := some target }

def advance (w : Workflow) (s : State) (stage outcome : String) (outputs : Json) (check : ExitCheck) :
    Except String State := do
  let outcome ← checkAdvance s stage outcome
  match w.stage stage with
  | none         => throw stage
  | some current =>
    let after := { s with
      visit   := s.visit + 1
      runs    := s.runs.insert stage ((s.runs.lookup stage).getD 0 + 1)
      outputs := s.outputs.insert stage outputs }
    let outcome ← stageOutcome current after.visit outcome outputs check
    if workflowExit w stage outcome after.outputs check then return finished after .passed
    match outcome with
    | none         => return after
    | some outcome => follow w current after outcome outputs

structure Call where
  stage   : String
  outcome : String
  outputs : Json
  check   : ExitCheck

def Call.advance (w : Workflow) (s : State) (c : Call) : Except String State :=
  Workflows.advance w s c.stage c.outcome c.outputs c.check

-- The state that is saved after a call: a call that is refused saves nothing.
def step (w : Workflow) (s : State) (c : Call) : State :=
  (c.advance w s).toOption.getD s

-- The calls of a run that are accepted.
def accepted (w : Workflow) (s : State) : List Call → ℕ
  | []      => 0
  | c :: cs => (if (c.advance w s).isOk then 1 else 0) + accepted w (step w s c) cs

end Workflows
