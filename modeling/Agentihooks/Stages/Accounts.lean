import Mathlib.Algebra.Order.Ring.Rat
import Mathlib.Data.Prod.Lex
import Mathlib.Data.String.Basic
import Mathlib.Data.List.Dedup
import Agentihooks.Library.Cuts
import Agentihooks.Library.KeyTable

-- The timeline of every task: the phases it goes through between claimable and merged, and what takes an instant from
-- its phase. Times are milliseconds.

namespace Stages

inductive Stage
  | claimWait
  | seatWait
  | queueWait
  | build
  | ciRun
  | review
  | mergeQueue
  | intentFix
  | launchFailure
  | launch
  | ciOverrun
  | ciQueue
  | hostHold
  | quotaHold
  deriving DecidableEq

structure AgentEvent where
  task    : String
  agent   : String
  kind    : String
  harness : String
  time    : ℚ

structure DeliveryEvent where
  task : String
  kind : String
  time : ℚ

structure CiRun where
  runId      : String
  attempt    : ℤ
  branch     : String
  conclusion : String
  time       : ℚ
  queued     : ℚ
  ran        : ℚ

-- A budget of zero is none.
structure CiStage where
  runId   : String
  attempt : ℤ
  stage   : String
  runner  : String
  pickup  : ℚ
  seconds : ℚ
  budget  : ℚ

-- `cleared` are the targets that an event's payload names as cleared.
structure LedgerEvent where
  kind    : String
  target  : String
  author  : String
  cleared : List String
  time    : ℚ

structure HostSample where
  heldBy     : String
  harness    : String
  heldSpawns : ℤ
  time       : ℚ

structure Rows where
  agentEvents    : List AgentEvent
  deliveryEvents : List DeliveryEvent
  ciRuns         : List CiRun
  ciStages       : List CiStage
  ledgerEvents   : List LedgerEvent
  hostSamples    : List HostSample

-- `others` is whatever else the claim rules read of a task.
structure Task (ρ : Type) where
  id     : String
  state  : Option String
  lane   : Option String
  branch : Option String
  others : Option ρ

structure Span where
  stage : Stage
  start : ℚ
  stop  : ℚ
  label : String
  count : ℕ
  deriving DecidableEq

namespace Span

def covers (span : Span) (t : ℚ) : Bool :=
  span.start ≤ t ∧ t < span.stop

end Span

structure Timeline where
  start    : ℚ
  stop     : ℚ
  base     : List Span
  overlays : List Span
  task     : String
  lane     : String
  seats    : List (ℚ × ℚ)

-- A ledger event with the focus targets that it released and the focus that is live after it.
structure Mark where
  event    : LedgerEvent
  cleared  : List String
  released : Finset String
  focus    : Finset String

def mark (found : Finset String × List Mark) (event : LedgerEvent) : Finset String × List Mark :=
  let cleared :=
    if event.kind = "unfrozen" then (if event.cleared = [] then [event.target] else event.cleared) else []
  let live := (if event.kind = "focused" then insert event.target found.1 else found.1) \ cleared.toFinset
  (live, found.2 ++ [⟨event, cleared, found.1 ∩ cleared.toFinset, live⟩])

def history (events : List LedgerEvent) : List Mark :=
  ((events.mergeSort fun a b => a.time ≤ b.time).foldl mark (∅, [])).2

-- The tick's claim rules: whether a task may be claimed, which events open it to a claim, and the seats of the lanes.
structure Claim (ρ : Type) where
  ready : Task ρ → Bool
  opens : Task ρ → Mark → Bool
  seats : Option (KeyTable String ℤ)

variable {ρ : Type}

def readyAt (task : Task ρ) (marks : List Mark) (before : ℚ) (claim : Claim ρ) : Option ℚ :=
  ((marks.filter fun m => m.event.time ≤ before ∧ claim.opens task m).map (·.event.time)).max?

def lives (taskId : String) (rows : Rows) (stop : ℚ) : List ((ℚ × ℚ) × Span) :=
  let mine := rows.agentEvents.filter (·.task = taskId)
  let has kind name := mine.any fun e => e.kind = kind ∧ e.agent = name
  mine.filterMap fun spawn =>
    if spawn.kind ≠ "spawn" ∨ has "launch_waiting" spawn.agent then none else
    let retired := (mine.reverse.find? fun e => e.kind = "retire" ∧ e.agent = spawn.agent).map (·.time)
    let last := min (retired.getD stop) stop
    if has "launch_failed" spawn.agent then
      some ((spawn.time, last), ⟨.launchFailure, spawn.time, last, spawn.harness, 0⟩)
    else
      let joins := rows.ledgerEvents.filter fun e => e.kind = "joined" ∧ e.author = spawn.agent ∧ spawn.time ≤ e.time
      let joined := ((joins.map (·.time)).min?).getD last
      some ((spawn.time, last), ⟨.launch, spawn.time, min joined last, spawn.harness, 0⟩)

-- The waits between the lives of a task's agents.
def gapsFrom (stop cursor : ℚ) : List (ℚ × ℚ) → List Span
  | []            => [⟨.claimWait, cursor, stop, "", 0⟩]
  | life :: lives => ⟨.claimWait, cursor, min life.1 stop, "", 0⟩ :: gapsFrom stop (max cursor life.2) lives

def gaps (lives : List (ℚ × ℚ)) (start stop : ℚ) : List Span :=
  gapsFrom stop start (lives.mergeSort fun a b => toLex a ≤ toLex b)

def created (run : CiRun) : ℚ :=
  run.time - (run.queued + run.ran) * 1000

-- The first run that ends after the last red one.
def green (runs : List CiRun) (pushed stop : ℚ) : ℚ :=
  let ended := (runs.filter fun r => pushed ≤ r.time ∧ r.time ≤ stop).mergeSort fun a b => a.time ≤ b.time
  let later := (ended.reverse.takeWhile (·.conclusion = "success")).reverse
  (later.head?.map (·.time)).getD stop

def overBudget (row : CiStage) : ℚ :=
  if row.budget = 0 then 0 else max 0 (row.seconds - row.budget)

def slower (best : Option CiStage) (row : CiStage) : Option CiStage :=
  match best with
  | none      => some row
  | some best => if toLex (best.pickup, best.stage) < toLex (row.pickup, row.stage) then some row else some best

def overruns (created cursor : ℚ) : List CiStage → List Span
  | []          => []
  | row :: rows =>
    ⟨.ciOverrun, max created (cursor - overBudget row * 1000), cursor, row.stage, 0⟩ ::
      overruns created (cursor - overBudget row * 1000) rows

def runSpans (stageRows : List CiStage) (run : CiRun) : List Span :=
  let mine := stageRows.filter fun row => row.runId = run.runId ∧ row.attempt = run.attempt
  let slowest := mine.foldl slower none
  let queued := (run.queued + (slowest.map (·.pickup)).getD 0) * 1000
  ⟨.ciQueue, created run, min run.time (created run + queued), (slowest.map (·.runner)).getD "", 0⟩ ::
    overruns (created run) run.time (mine.mergeSort fun a b => toLex (-overBudget a, a.stage) ≤ toLex (-overBudget b, b.stage))

def ci (runs : List CiRun) (stageRows : List CiStage) (pushed green : ℚ) : List Span :=
  (runs.flatMap (runSpans stageRows)).map fun s => { s with start := max s.start pushed, stop := min s.stop green }

-- A failed intent lasts until the next verdict.
def fixes (stop : ℚ) : List DeliveryEvent → List Span
  | []                => []
  | event :: verdicts =>
    let next := (verdicts.head?.map (·.time)).getD stop
    if event.kind = "intent_failed" then ⟨.intentFix, event.time, next, "", 0⟩ :: fixes stop verdicts
    else fixes stop verdicts

def reviews (taskId : String) (rows : Rows) (stop : ℚ) : List Span :=
  let mine := (rows.deliveryEvents.filter (·.task = taskId)).mergeSort fun a b => a.time ≤ b.time
  let queued := (mine.filter (·.kind = "merge_queued")).map (·.time)
  fixes stop (mine.filter fun e => e.kind = "intent_failed" ∨ e.kind = "intent_passed") ++
    (queued.head?.map fun time => ⟨.mergeQueue, time, stop, "", 0⟩).toList

def rounds (taskId : String) (rows : Rows) (green stop : ℚ) : List Span :=
  let marks := (rows.deliveryEvents.filter fun e => e.task = taskId ∧ e.kind = "review_round").map (·.time)
  let edges := Cuts.points (green :: stop :: marks.map fun mark => min (max mark green) stop)
  (Cuts.pairs edges).map fun p => ⟨.review, p.1, p.2, "round " ++ toString (1 + marks.countP (· ≤ p.1)), 0⟩

def lane (task : Task ρ) : String :=
  task.lane.getD "eng"

-- The task has an event of a claim.
def claimed (task : Task ρ) (rows : Rows) (now : ℚ) (live : Bool) (claim : Claim ρ) (marks : List Mark) : Timeline :=
  let mine := rows.agentEvents.filter (·.task = task.id)
  let ofKind kind := (rows.deliveryEvents.filter fun e => e.task = task.id ∧ e.kind = kind).map (·.time)
  let claimed := (((mine.filter (·.kind = "claim")).map (·.time)).min?).getD now
  let stop := (ofKind "merge").head?.getD (if live then now else ((mine.map (·.time)).max?).getD now)
  let runs := rows.ciRuns.filter fun run => task.branch ≠ some "" ∧ task.branch = some run.branch
  let pushes := (runs.map created ++ ofKind "pull_request_opened").filter (claimed ≤ ·)
  let pushed := (pushes ++ [stop]).min?.getD stop
  let green := green runs pushed stop
  let start := (readyAt task marks claimed claim).getD claimed
  let lives := lives task.id rows stop
  { start    := start
    stop     := stop
    base     := ⟨.claimWait, start, claimed, "", 0⟩ :: ⟨.build, claimed, pushed, "", 0⟩ ::
      ⟨.ciRun, pushed, green, "", 0⟩ :: rounds task.id rows green stop
    overlays := reviews task.id rows stop ++ lives.map (·.2) ++ gaps (lives.map (·.1)) claimed pushed ++
      ci runs rows.ciStages pushed green
    task     := task.id
    lane     := lane task
    seats    := lives.map (·.1) }

def waiting (task : Task ρ) (marks : List Mark) (claim : Claim ρ) (now : ℚ) : Option Timeline :=
  if ¬ claim.ready task then none else
  (readyAt task marks now claim).map fun start =>
    ⟨start, now, [⟨.claimWait, start, now, "", 0⟩], [], task.id, lane task, []⟩

-- The last task of an id stands for it.
def byId (tasks : List (Task ρ)) (id : String) : Task ρ :=
  (tasks.reverse.find? (·.id = id)).getD ⟨id, none, none, none, none⟩

def timelines (rows : Rows) (tasks : List (Task ρ)) (now : ℚ) (claim : Claim ρ) : List Timeline :=
  let ids := (rows.agentEvents.filter (·.kind = "claim")).map (·.task)
  let marks := history rows.ledgerEvents
  let live id := (byId tasks id).state = some "claimed" ∨ (byId tasks id).state = some "pr"
  (Cuts.points ids).map (fun id => claimed (byId tasks id) rows now (live id) claim marks) ++
    (tasks.filter (·.id ∉ ids)).filterMap fun task => waiting task marks claim now

end Stages

-- The account of the stages: every timeline is cut where a span of it begins or ends, and the waits for a claim are
-- charged to the holds of the hosts, to the seats of their lane or to the queue.

namespace Stages

structure Window where
  start : ℚ
  stop  : ℚ

def Window.seconds (window : Window) (start stop : ℚ) : ℚ :=
  max 0 (min stop window.stop - max start window.start) / 1000

-- The order of the overlays, the first one first.
def overlays : List Stage :=
  [.mergeQueue, .intentFix, .launchFailure, .launch, .claimWait, .ciOverrun, .ciQueue]

def stageAt (timeline : Timeline) (t : ℚ) : Option (Stage × String) :=
  let ranked := timeline.overlays.mergeSort fun a b => overlays.idxOf a.stage ≤ overlays.idxOf b.stage
  ((ranked ++ timeline.base).find? (·.covers t)).map fun s => (s.stage, s.label)

structure Segment where
  start : ℚ
  stop  : ℚ
  stage : Stage
  label : String

def low (timeline : Timeline) (window : Window) : ℚ :=
  max timeline.start window.start

def high (timeline : Timeline) (window : Window) : ℚ :=
  max (low timeline window) (min timeline.stop window.stop)

def edges (timeline : Timeline) (window : Window) : List ℚ :=
  let clip t := min (max t (low timeline window)) (high timeline window)
  Cuts.points (low timeline window :: high timeline window ::
    (timeline.base ++ timeline.overlays).flatMap fun s => [clip s.start, clip s.stop])

-- Fails where no span covers the middle of a piece.
def segments (timeline : Timeline) (window : Window) : Option (List Segment) :=
  (Cuts.pairs (edges timeline window)).mapM fun p =>
    (stageAt timeline ((p.1 + p.2) / 2)).map fun x => ⟨p.1, p.2, x.1, x.2⟩

def sampleGap : ℚ := 20 * 60 * 1000

-- What a sample holds until the next one, at most so long.
def heldSpans (samples : List HostSample) (now : ℚ) : List (HostSample × ℚ) :=
  let ordered := samples.mergeSort fun a b => a.time ≤ b.time
  (ordered.zip (ordered.tail.map (·.time) ++ [now])).map fun x => (x.1, min (x.1.time + sampleGap) x.2)

def merge (merged : List Span) (span : Span) : List Span :=
  match merged.getLast? with
  | none      => [span]
  | some last =>
    if (last.stage, last.label, last.count, last.stop) = (span.stage, span.label, span.count, span.start) then
      merged.dropLast ++ [{ last with stop := span.stop }]
    else merged ++ [span]

def holds (samples : List HostSample) (now : ℚ) : List Span :=
  let held := (heldSpans samples now).filter fun x => 0 < x.1.heldSpawns
  (held.map fun x => ⟨if x.1.heldBy = "host" then .hostHold else .quotaHold, x.1.time, x.2, x.1.harness,
    x.1.heldSpawns.toNat⟩).foldl merge []

-- A stretch of a timeline that waits for a claim.
structure Piece where
  born  : ℚ
  task  : String
  start : ℚ
  stop  : ℚ
  owner : ℕ
  label : String
  deriving DecidableEq

namespace Piece

def le (p q : Piece) : Bool :=
  toLex (p.born, toLex (p.task, toLex (p.start, toLex (p.stop, toLex (p.owner, p.label))))) ≤
    toLex (q.born, toLex (q.task, toLex (q.start, toLex (q.stop, toLex (q.owner, q.label)))))

def spans (piece : Piece) (pair : ℚ × ℚ) : Bool :=
  piece.start ≤ pair.1 ∧ pair.2 ≤ piece.stop

end Piece

structure Charge where
  owner : ℕ
  stage : Stage
  label : String
  start : ℚ
  stop  : ℚ

namespace Charge

def seconds (charge : Charge) : ℚ :=
  (charge.stop - charge.start) / 1000

def covers (charge : Charge) (t : ℚ) : Bool :=
  charge.start ≤ t ∧ t < charge.stop

end Charge

section Held

variable (under : List Piece)

def holdPoints (hold : Span) : List ℚ :=
  let clip t := min (max t hold.start) hold.stop
  Cuts.points (hold.start :: hold.stop :: under.flatMap fun p => [clip p.start, clip p.stop])

-- As many of the waiting pieces as the hold held spawns, the earliest first.
def chosen (hold : Span) (pair : ℚ × ℚ) : List Piece :=
  ((under.filter (·.spans pair)).mergeSort Piece.le).take hold.count

def heldBy (hold : Span) : List (Piece × ℚ × ℚ) :=
  (Cuts.pairs (holdPoints under hold)).flatMap fun pair => (chosen under hold pair).map fun p => (p, pair)

def holdCharges (hold : Span) : List Charge :=
  (heldBy under hold).map fun x => ⟨x.1.owner, hold.stage, hold.label, x.2.1, x.2.2⟩

def cut (held : List Span) (piece : Piece) : List (ℚ × ℚ) :=
  held.flatMap fun hold => ((heldBy under hold).filter (·.1 = piece)).map (·.2)

end Held

def uncut (piece : Piece) (taken : List (ℚ × ℚ)) : List Piece :=
  (Cuts.rest piece.start piece.stop (taken.mergeSort fun a b => toLex a ≤ toLex b)).map fun x =>
    { piece with start := x.1, stop := x.2 }

def splitPoints (pieces : List Piece) (lives : List (ℚ × ℚ)) : List ℚ :=
  Cuts.points ((pieces.flatMap fun p => [p.start, p.stop]) ++ lives.flatMap fun life => [life.1, life.2])

def seatsAt (pieces : List Piece) (lives : List (ℚ × ℚ)) (cap : Option ℤ) (pair : ℚ × ℚ) : ℤ :=
  match cap with
  | none     => (pieces.filter (·.spans pair)).length
  | some cap => if cap ≤ lives.countP (fun life => life.1 ≤ pair.1 ∧ pair.2 ≤ life.2) then cap else 0

def splitAt (pieces : List Piece) (lives : List (ℚ × ℚ)) (cap : Option ℤ) (pair : ℚ × ℚ) : List Charge :=
  ((pieces.filter (·.spans pair)).mergeSort Piece.le).zipIdx.map fun x =>
    ⟨x.1.owner, if x.2 < seatsAt pieces lives cap pair then .seatWait else .queueWait, x.1.label, pair.1, pair.2⟩

-- The waits of a lane: at most one for each seat while every seat is busy, the others for the queue.
def split (pieces : List Piece) (lives : List (ℚ × ℚ)) (cap : Option ℤ) : List Charge :=
  (Cuts.pairs (splitPoints pieces lives)).flatMap (splitAt pieces lives cap)

section Charges

variable (found : List Timeline) (laid : List (List Segment))

-- What is not a wait for a claim is charged as it is.
def own : List Charge :=
  laid.zipIdx.flatMap fun x =>
    (x.1.filter (·.stage ≠ .claimWait)).map fun s => ⟨x.2, s.stage, s.label, s.start, s.stop⟩

-- The waits for a claim, each with its lane.
def pieces : List (String × Piece) :=
  (found.zip laid).zipIdx.flatMap fun x =>
    (x.1.2.filter (·.stage = .claimWait)).map fun s =>
      (x.1.1.lane, ⟨x.1.1.start, x.1.1.task, s.start, s.stop, x.2, s.label⟩)

def under : List Piece :=
  (pieces found laid).map (·.2)

def lanes : List String :=
  ((pieces found laid).map (·.1)).dedup

def laneLives (lane : String) : List (ℚ × ℚ) :=
  (found.filter (·.lane = lane)).flatMap (·.seats)

def laneRest (held : List Span) (lane : String) : List Piece :=
  ((pieces found laid).filter (·.1 = lane)).flatMap fun x => uncut x.2 (cut (under found laid) held x.2)

def laneCap (seats : Option (KeyTable String ℤ)) (lane : String) : Option ℤ :=
  seats.map fun seats => (seats.lookup lane).getD 0

def laneCharges (held : List Span) (seats : Option (KeyTable String ℤ)) (lane : String) : List Charge :=
  split (laneRest found laid held lane) (laneLives found lane) (laneCap seats lane)

def charges (held : List Span) (seats : Option (KeyTable String ℤ)) : List Charge :=
  own laid ++ held.flatMap (holdCharges (under found laid)) ++
    (lanes found laid).flatMap (laneCharges found laid held seats)

end Charges

def charge (seconds : KeyTable (Stage × String) ℚ) (charge : Charge) : KeyTable (Stage × String) ℚ :=
  seconds.insert (charge.stage, charge.label) ((seconds.lookup (charge.stage, charge.label)).getD 0 + charge.seconds)

variable {ρ : Type}

-- Every timeline with the seconds of its stages.
def charged (rows : Rows) (tasks : List (Task ρ)) (now windowMs : ℚ) (claim : Claim ρ) :
    Option (List (Timeline × KeyTable (Stage × String) ℚ)) :=
  let found := timelines rows tasks now claim
  (found.mapM (segments · ⟨now - windowMs, now⟩)).map fun laid =>
    let all := charges found laid (holds rows.hostSamples now) claim.seats
    found.zipIdx.map fun x => (x.1, (all.filter (·.owner = x.2)).foldl charge ∅)

end Stages
