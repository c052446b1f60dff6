import Mathlib.Algebra.Order.Ring.Rat
import Mathlib.Logic.Function.Basic
import Agentihooks.Library.Run
import Agentihooks.Library.Text

-- How an execution is classified by what its sources say, one classification after another.

namespace Observation

inductive Source
  | heartbeat
  | kubernetes
  | provider
  | supervisor
  | terminal
  deriving DecidableEq

def Source.all : List Source :=
  [.heartbeat, .kubernetes, .provider, .supervisor, .terminal]

inductive Reading
  | ok
  | notFound
  | forbidden
  | unauthenticated
  | unreachable
  deriving DecidableEq

-- `DENIED`
def Reading.denied : Reading → Bool
  | .forbidden | .unauthenticated => true
  | _                             => false

inductive State
  | pending
  | starting
  | working
  | waitingQuota
  | suspect
  | lost
  deriving DecidableEq

-- `ALIVE`
def State.alive : State → Bool
  | .working | .waitingQuota => true
  | _                        => false

inductive Terminal
  | reachable
  | degraded
  | unobserved
  deriving DecidableEq

inductive Failure
  | none
  | terminalLoss
  | workerLoss
  | podScheduling
  | providerWait
  | observationDenied
  | observationUnavailable
  deriving DecidableEq

inductive Confidence
  | confirmed
  | partly
  | uncertain
  deriving DecidableEq

inductive Mode
  | standard
  | conservative
  deriving DecidableEq

inductive Ruling
  | lost
  | working
  deriving DecidableEq

structure Seen where
  reading    : Reading
  observedAt : ℚ
  value      : String
  deriving DecidableEq

structure Signal where
  source     : Source
  reading    : Reading
  observedAt : ℚ
  value      : String
  deriving DecidableEq

def Signal.seen (found : Signal) : Seen :=
  ⟨found.reading, found.observedAt, found.value⟩

structure Thresholds where
  freshS     : ℚ
  lostAfterS : ℚ
  mode       : Mode

-- What is remembered of each source.
abbrev Sources := Source → Option Seen

-- What an operator said of the execution.
structure Ruled where
  ruling : Ruling
  reason : String
  whom   : String
  time   : ℚ
  deriving DecidableEq

structure Classification where
  generation    : ℤ
  state         : State
  terminal      : Terminal
  failure       : Failure
  confidence    : Confidence
  observedAt    : ℚ
  confirmedAt   : ℚ
  classifiedAt  : ℚ
  sources       : Sources
  denied        : List Source
  suspectSince  : ℚ
  proofSince    : ℚ
  needsOperator : Bool
  recovered     : Bool
  ruled         : Option Ruled

section Evidence

-- A signal against what is known of its source.
def remember (latest : Sources) (found : Signal) : Sources :=
  match latest found.source with
  | none      => Function.update latest found.source (some found.seen)
  | some held =>
    if held.observedAt ≤ found.observedAt then Function.update latest found.source (some found.seen) else latest

-- `_latest`
def latest (signals : List Signal) (known : Sources) : Sources :=
  signals.foldl remember known

variable (sources : Sources)

-- `_values`
def value (source : Source) : Option String :=
  (sources source).bind fun found => if found.reading = .ok then some found.value else none

-- `_lost`
def showsEnd (source : Source) (found : Seen) : Bool :=
  match source, found.reading with
  | .kubernetes, .notFound => true
  | .kubernetes, .ok       => found.value = "Succeeded" ∨ found.value = "Failed"
  | .supervisor, .ok       => found.value = "exited"
  | _, _                   => false

def gone : Bool :=
  Source.all.any fun source => (sources source).any (showsEnd source)

-- `_terminal`
def terminalOf : Option Seen → Terminal
  | none       => .unobserved
  | some found => if found.reading = .ok then .reachable else .degraded

variable (now freshS : ℚ)

def fresh : Bool :=
  (sources .heartbeat).any fun beat => beat.reading = .ok ∧ now - beat.observedAt ≤ freshS

def current (source : Source) : Option Seen :=
  (sources source).filter fun found => now - found.observedAt ≤ freshS

end Evidence

section Judge

-- `_alive`
def aliveState (latest current : Sources) : State × Failure × Confidence :=
  if gone latest then (.suspect, .workerLoss, .uncertain)
  else if value latest .kubernetes = some "Pending" then (.suspect, .podScheduling, .uncertain)
  else
    let agrees := value current .kubernetes = some "Running" ∨ value current .supervisor = some "confirmed"
    let agree  := if agrees then Confidence.confirmed else .partly
    if value latest .provider = some "quota_wait" then (.waitingQuota, .providerWait, agree) else (.working, .none, agree)

def judge (isFresh : Bool) (latest current : Sources) : State × Failure × Confidence :=
  let pod := (latest .kubernetes).elim Reading.unreachable Seen.reading
  if isFresh then aliveState latest current
  else if gone latest then (.lost, .workerLoss, .partly)
  else if value latest .kubernetes = some "Pending" then (.pending, .podScheduling, .partly)
  else if pod.denied then (.suspect, .observationDenied, .uncertain)
  else if pod ≠ .ok then (.suspect, .observationUnavailable, .uncertain)
  else if (latest .heartbeat).isSome then (.suspect, .workerLoss, .uncertain)
  else if value latest .supervisor = some "confirmed" then (.working, .none, .partly)
  else (.starting, .none, .partly)

def qualified (failure : Failure) (terminal : Terminal) (denied : List Source) : Failure :=
  if failure = .none ∧ terminal = .degraded then .terminalLoss
  else if failure = .none ∧ denied ≠ [] then .observationDenied
  else failure

def settled (state : State) (kept : Option Classification) (thresholds : Thresholds) (now : ℚ) : State :=
  let provenSince := kept.elim 0 Classification.proofSince
  let held := provenSince ≠ 0 ∧ thresholds.lostAfterS ≤ now - provenSince
  if state = .lost ∧ (thresholds.mode = .conservative ∨ ¬ held) then .suspect else state

-- `_lost_after`
def lostAfter (sources : Sources) (time : ℚ) : Bool :=
  Source.all.any fun source => (sources source).any fun found => time < found.observedAt ∧ showsEnd source found

-- `_ruled`
def applyRuling (kept : Option Classification) (seen : Classification) : Classification :=
  match kept.bind Classification.ruled with
  | none       => seen
  | some ruled =>
    if ruled.ruling ≠ .working ∨ ¬ (seen.state = .suspect ∨ seen.state = .lost) then seen
    else if lostAfter seen.sources ruled.time then seen
    else { seen with state := .working, suspectSince := 0, needsOperator := false, ruled := some ruled }

-- What `classify` sees before a ruling is applied.
def observed (generation : ℤ) (signals : List Signal) (kept : Option Classification) (thresholds : Thresholds) (now : ℚ) :
    Classification :=
  let latest   := latest signals (kept.elim (fun _ => none) Classification.sources)
  let isFresh  := fresh latest now thresholds.freshS
  let judged   := judge isFresh latest (current latest now thresholds.freshS)
  let denied   := Source.all.filter fun source => (latest source).any (·.reading.denied)
  let terminal := terminalOf (latest .terminal)
  let state    := settled judged.1 kept thresholds now
  let times    := Source.all.filterMap fun source => (latest source).map Seen.observedAt
  let oks      := Source.all.filterMap fun source =>
    ((latest source).filter (·.reading = .ok)).map Seen.observedAt
  let wasSuspect := kept.any (·.state = .suspect)
  { generation    := generation
    state         := state
    terminal      := terminal
    failure       := qualified judged.2.1 terminal denied
    confidence    := judged.2.2
    observedAt    := times.max?.getD 0
    confirmedAt   := oks.foldl max (kept.elim 0 Classification.confirmedAt)
    classifiedAt  := now
    sources       := latest
    denied        := denied
    suspectSince  := if state = .suspect ∨ state = .lost then
        (if wasSuspect then kept.elim now Classification.suspectSince else now) else 0
    proofSince    := if judged.1 = .lost then
        (if kept.any (·.proofSince ≠ 0) then kept.elim now Classification.proofSince else now) else 0
    needsOperator := thresholds.mode = .conservative ∧ state = .suspect
    recovered     := wasSuspect ∧ state.alive
    ruled         := none }

-- What is kept of the record for a classification of the generation.
def keptOf (prior : Option Classification) (generation : ℤ) : Option Classification :=
  prior.filter (·.generation = generation)

def classify (generation : ℤ) (signals : List Signal) (prior : Option Classification) (thresholds : Thresholds) (now : ℚ) :
    Classification :=
  let kept := keptOf prior generation
  match kept.filter (·.state = .lost) with
  | some lost => lost
  | none      => applyRuling kept (observed generation signals kept thresholds now)

end Judge

-- The record of an execution.
abbrev Record := Option Classification

inductive Event
  | observe (generation : ℤ) (signals : List Signal) (thresholds : Thresholds) (now : ℚ)
  | rule (ruling : Ruling) (reason whom : String) (now : ℚ)

-- A later record is in the way of a classification.
def outdated (prior : Record) (generation : ℤ) (now : ℚ) : Bool :=
  prior.any fun prior => generation < prior.generation ∨ prior.generation = generation ∧ now < prior.classifiedAt

-- `Observer._record`
def record (prior : Record) (generation : ℤ) (signals : List Signal) (thresholds : Thresholds) (now : ℚ) : Record :=
  if outdated prior generation now then prior else some (classify generation signals prior thresholds now)

-- `rule`, which changes nothing where it refuses.
def rule (prior : Record) (ruling : Ruling) (reason whom : String) (now : ℚ) : Record :=
  match prior with
  | none       => none
  | some prior =>
    if Text.strip reason = "" ∨ ¬ prior.needsOperator then some prior
    else some { prior with
      state         := match ruling with
        | .lost    => .lost
        | .working => .working
      classifiedAt  := now
      suspectSince  := if ruling = .lost then prior.suspectSince else 0
      needsOperator := false
      ruled         := some ⟨ruling, Text.strip reason, whom, now⟩ }

def step (prior : Record) : Event → Record
  | .observe generation signals thresholds now => record prior generation signals thresholds now
  | .rule ruling reason whom now               => rule prior ruling reason whom now

end Observation
