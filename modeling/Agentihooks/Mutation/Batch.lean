import Mathlib.Data.List.Basic
import Agentihooks.Library.Finmap
import Agentihooks.Library.Text
import Agentihooks.Objects.Rows

-- The operations of one mutation of a ledger, applied in place one after the other. A batch that adds a plan is
-- atomic: when one of its operations is refused, all of them are taken back.

namespace Mutation

structure Alert where
  id            : String
  text          : String
  source        : String
  target        : String
  state         : String
  at_           : ℤ
  rev           : ℕ
  writer        : Option String
  item          : Option String
  lastRefusedAt : Option ℤ
  closedBy      : String
  closedAt      : ℤ
  outcome       : String
  deriving DecidableEq

structure Stamp where
  at_ : ℤ
  rev : ℕ
  by_ : String
  deriving DecidableEq

structure Event where
  rev    : ℕ
  at_    : ℤ
  by_    : String
  kind   : String
  target : String
  extra  : List (String × String)
  deriving DecidableEq

structure Plan where
  id       : String
  title    : String
  artifact : String
  url      : String
  deriving DecidableEq

structure Member where
  role       : String
  joinedAt   : ℤ
  lastSeen   : ℤ
  claims     : List String
  handledRev : ℕ
  deriving DecidableEq

-- What the operations write next to the stamps; `others` is the rest of it, such as the outcomes.
structure Meta (μ : Type) where
  members     : Dict String Member
  joinHistory : Dict String (List ℤ)
  others      : μ

-- The document with the context of one mutation. `content` is the rest of the document.
structure State (δ μ : Type) where
  content : δ
  plans   : Option (List Plan)
  alerts  : Option (List Alert)
  stamps  : Dict String Stamp
  events  : List Event
  dropped : List String
  dirty   : Bool
  refused : List String
  meta_   : Meta μ

-- `author` resolves an agent's name and `laneOf` tells its lane.
structure Context where
  at_    : ℤ
  rev    : ℕ
  author : String → String
  laneOf : String → String

-- Every other kind of operation, by what it does to the state.
structure Other (δ μ : Type) where
  kind    : String
  by_     : Option String
  item    : String
  perform : Context → State δ μ → Bool × State δ μ

inductive Action (δ μ : Type)
  | join (by_ : String) (role : Option String)
  | leave (by_ : String)
  | planAdd (by_ plan title artifact url : String)
  | other (op : Other δ μ)

structure Op (δ μ : Type) where
  id     : String
  action : Action δ μ

variable {δ μ : Type}

namespace Op

def kind (op : Op δ μ) : String :=
  match op.action with
  | .join ..    => "join"
  | .leave ..   => "leave"
  | .planAdd .. => "plan_add"
  | .other op   => op.kind

def by_ (op : Op δ μ) : Option String :=
  match op.action with
  | .join by_ ..    => some by_
  | .leave by_      => some by_
  | .planAdd by_ .. => some by_
  | .other op       => op.by_

def item (op : Op δ μ) : String :=
  match op.action with
  | .other op => op.item
  | _         => op.kind

end Op

def sync : String :=
  "sync"

def done : String :=
  "done"

def operator : String :=
  "operator"

variable (c : Context)

def Op.writer (op : Op δ μ) : Option String :=
  match op.by_ with
  | some by_ => if by_ = "" then none else some (c.author by_)
  | none     => none

namespace State

variable (s : State δ μ)

def record (by_ kind target : String) (extra : List (String × String)) : State δ μ :=
  { s with events := s.events ++ [⟨c.rev, c.at_, by_, kind, target, extra⟩] }

def refuse (text : String) : State δ μ :=
  { s with refused := s.refused ++ [text] }

def touch (by_ : String) : State δ μ :=
  match s.meta_.members.lookup by_ with
  | none        => s
  | some member => { s with meta_.members := s.meta_.members.insert by_ { member with lastSeen := c.at_ } }

def join (by_ : String) (role : Option String) : Bool × State δ μ :=
  let known := s.meta_.members.lookup by_
  let role := role.getD ((known.map Member.role).getD "member")
  let role := if (known.map Member.role) = some "orchestrator" ∧ c.laneOf by_ = "master" then "orchestrator" else role
  let member : Member :=
    match known with
    | some known => { known with role := role, lastSeen := c.at_ }
    | none       => ⟨role, c.at_, c.at_, [], c.rev - 1⟩
  let starts := (s.meta_.joinHistory.lookup by_).getD []
  let starts := if member.joinedAt ∈ starts then starts else starts ++ [member.joinedAt]
  let s := { s with
    meta_.members     := s.meta_.members.insert by_ member
    meta_.joinHistory := s.meta_.joinHistory.insert by_ starts }
  (true, (s.record c by_ "joined" "" [("role", role)]).touch c by_)

def leave (by_ : String) : Bool × State δ μ :=
  if by_ ∈ s.meta_.members then
    (true, { s with meta_.members := s.meta_.members.erase by_ }.record c by_ "left" "" [])
  else
    (false, s.refuse s!"leave refused: {by_} has not joined this ledger")

def planAdd (by_ : String) (plan : Plan) : Bool × State δ μ :=
  let plans := s.plans.getD []
  match plans.find? fun row => row.id = plan.id with
  | some existing =>
    let s := { s with plans := some plans }
    if existing = plan then (true, s) else (false, s.refuse s!"plan {plan.id} already exists")
  | none =>
    (true, { s with plans := some (plans ++ [plan]) }.record c by_ "added" s!"plans/{plan.id}" [("text", plan.title)])

-- What another operation adds to the lists it only appends to.
def other (op : Other δ μ) : Bool × State δ μ :=
  let (done, after) := op.perform c s
  (done, { after with
    events  := s.events ++ after.events
    dropped := s.dropped ++ after.dropped
    refused := s.refused ++ after.refused })

def perform (op : Op δ μ) : Bool × State δ μ :=
  match op.action with
  | .join by_ role                       => s.join c (c.author by_) role
  | .leave by_                           => s.leave c (c.author by_)
  | .planAdd by_ plan title artifact url => s.planAdd c (c.author by_) ⟨plan, Text.strip title, artifact, url⟩
  | .other op                            => s.other c op

end State

-- A refusal, with the writer it met and the item it was about.
structure Warning where
  text   : String
  writer : Option String
  item   : String
  deriving DecidableEq

def newAlert (alerts : List Alert) (w : Warning) : Alert where
  id            := s!"al-{c.rev}-{alerts.length}"
  text          := w.text
  source        := sync
  target        := match w.writer with
    | some writer => if writer = "" ∨ writer = operator then "master" else writer
    | none        => "master"
  state         := "open"
  at_           := c.at_
  rev           := c.rev
  writer        := w.writer
  item          := some w.item
  lastRefusedAt := some c.at_
  closedBy      := ""
  closedAt      := 0
  outcome       := ""

def Alert.isOf (w : Warning) (alert : Alert) : Bool :=
  alert.text = w.text && alert.writer = w.writer && alert.item = some w.item && alert.state ≠ done

-- The first live alert of the same refusal is renewed.
def raiseAlert (w : Warning) (alerts : List Alert) : List Alert :=
  match alerts.findIdx? (Alert.isOf w) with
  | some i => alerts.modify i fun alert => { alert with lastRefusedAt := some c.at_ }
  | none   => alerts ++ [newAlert c alerts w]

namespace State

variable (s : State δ μ)

def raiseWarning (w : Warning) : State δ μ :=
  { s with alerts := some (raiseAlert c w (s.alerts.getD [])), dirty := true }

def setAlerts : State δ μ :=
  { s with alerts := some (s.alerts.getD []) }

-- The live refusals of a writer on an item, which the operation it got through closes.
def recovered (op : Op δ μ) : State δ μ :=
  let open_ (alert : Alert) : Bool :=
    alert.state ≠ done && alert.source = sync && alert.writer = op.writer c && alert.item = some op.item
  let outcome := "The writer succeeded on the same item."
  let who (alert : Alert) : String := match alert.writer with
    | some writer => if writer = "" then "ledger" else writer
    | none        => "ledger"
  { s with
    alerts := s.alerts.map fun alerts => alerts.map fun alert =>
      if open_ alert then { alert with state := done, closedBy := who alert, closedAt := c.at_, outcome := outcome }
      else alert
    events := s.events ++ ((s.alerts.getD []).filter open_).map fun alert =>
      ⟨c.rev, c.at_, who alert, "alert closed", s!"alerts/{alert.id}", [("text", outcome)]⟩ }

end State

-- The operations so far: the state they left, the ids refused, and the warnings raised for them.
structure Pass (δ μ : Type) where
  state    : State δ μ
  rejected : List String
  raised   : List Warning

def Pass.next (p : Pass δ μ) (op : Op δ μ) : Pass δ μ :=
  let (done, s) := p.state.perform c op
  let s := (if done then s.recovered c op else s).setAlerts
  let warnings := (s.refused.drop p.state.refused.length).map fun text => ⟨text, op.writer c, op.item⟩
  { state    := warnings.foldl (fun s w => s.raiseWarning c w) s
    rejected := if done then p.rejected else p.rejected ++ [op.id]
    raised   := p.raised ++ warnings }

-- The order the operations run in: a refresh of the statistics comes after everything else.
def ordered (ops : List (Op δ μ)) : List (Op δ μ) :=
  ops.filter (fun op => op.kind ≠ "stats_sync") ++ ops.filter fun op => op.kind = "stats_sync"

def atomic (ops : List (Op δ μ)) : Bool :=
  ops.any fun op => op.kind = "plan_add"

def performed (s : State δ μ) (rejected : List String) (ops : List (Op δ μ)) : Pass δ μ :=
  (ordered ops).foldl (Pass.next c) ⟨s, rejected, []⟩

def Pass.rollBack (p : Pass δ μ) (held : State δ μ) (rejected : List String) (ops : List (Op δ μ)) : Pass δ μ :=
  let s := { p.state with
    content := held.content
    plans   := held.plans
    alerts  := held.alerts
    stamps  := held.stamps
    events  := p.state.events.take held.events.length
    dropped := p.state.dropped.take held.dropped.length
    dirty   := held.dirty }
  { p with
    state    := p.raised.foldl (fun s w => s.raiseWarning c w) s.setAlerts
    rejected := rejected ++ (ordered ops).map Op.id }

-- `rejected` is what the checkbox changes before the operations had refused.
def apply (s : State δ μ) (rejected : List String) (ops : List (Op δ μ)) : Pass δ μ :=
  let p := performed c s rejected ops
  if atomic (ordered ops) ∧ rejected.length < p.rejected.length then p.rollBack c s rejected ops else p

end Mutation
