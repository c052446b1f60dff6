import Mathlib.Algebra.Ring.Nat
import Mathlib.Data.Finset.Union
import Mathlib.Data.List.Dedup
import Agentihooks.Library.Finmap
import Agentihooks.Library.Worklist
import Agentihooks.Objects.Rows

-- Grouped tasks: a lead task whose agent delivers its members' work in one pull request. The lead lists its members
-- and each member names the lead it is merged into.

namespace Grouping

-- A ledger holds no item without an id.
abbrev TaskId := { name : String // name ≠ "" }

structure Task where
  state        : Option String
  claimedBy    : String
  lane         : Option String
  profile      : Option String
  kind         : Option String
  difficulty   : Option String
  dependsOn    : List TaskId
  mergedInto   : Option TaskId
  groupMembers : Option (List TaskId)
  deriving DecidableEq

abbrev Tasks := Dict TaskId Task

def orElse (value : Option String) (default : String) : String :=
  match value with
  | none | some ""  => default
  | some value      => value

def Task.kindOf (t : Task) : String :=
  orElse t.kind "code"

def Task.members (t : Task) : List TaskId :=
  t.groupMembers.getD []

def maxTasks : ℕ :=
  5

def minutes : String → Option ℕ
  | "S" => some 10
  | "M" => some 25
  | "L" => some 40
  | _   => none

def foldCeiling : ℕ :=
  2 * 40

def groupedKinds : List String :=
  ["code", "ci"]

def refusedLanes : List String :=
  ["eng", "ci", "plan"]

-- What an operation may raise; the whole mutation is dropped then.
inductive Raised
  | keyError (key : String)
  | valueError (text : String)
  deriving DecidableEq

-- A check of a task: the reason to refuse it, if there is one.
abbrev Check := Except Raised (Option String)

def Check.orNext (first second : Check) : Check :=
  match first with
  | .ok none => second
  | found    => found

def Check.firstOf {α : Type} (check : α → Check) : List α → Check
  | []        => .ok none
  | x :: rest => (check x).orNext (firstOf check rest)

def next (tasks : Tasks) (id : TaskId) : List TaskId :=
  (tasks.lookup id).elim [] Task.dependsOn

def dependencies (tasks : Tasks) : TargetGraph TaskId where
  next    := next tasks
  targets := tasks.keys.biUnion fun id => (next tasks id).toFinset
  covers  := by
    intro a b h
    refine Finset.mem_biUnion.mpr ⟨a, ?_, List.mem_toFinset.mpr h⟩
    by_contra hk
    simp [next, Finmap.lookup_eq_none_of_notMem_keys hk] at h

def upstream (tasks : Tasks) (t : Task) : List TaskId :=
  (dependencies tasks).closure t.dependsOn

def leastName (ids : List TaskId) : String :=
  ((ids.map Subtype.val).mergeSort (fun a b => decide (a ≤ b))).headD ""

-- The tasks of a group with their ids, the lead first.
abbrev Group := List (TaskId × Task)

def standing : TaskId × Task → Check
  | (id, t) =>
    match t.state with
    | none => .error (.keyError "state")
    | some state =>
      if state ≠ "open" ∨ t.claimedBy ≠ "" then .ok s!"task {id.val} is not open and unclaimed"
      else if t.mergedInto.isSome ∨ t.members ≠ [] then .ok s!"task {id.val} is already grouped"
      else if t.kindOf ∉ groupedKinds then .ok s!"task {id.val} is not a code or ci task"
      else if (t.difficulty.bind minutes).isNone then .ok s!"task {id.val} needs a difficulty first"
      else .ok none

def Done (tasks : Tasks) (id : TaskId) : Prop :=
  (tasks.lookup id).bind Task.state = some "done"

instance (tasks : Tasks) (id : TaskId) : Decidable (Done tasks id) :=
  inferInstanceAs (Decidable (_ = _))

def reached (tasks : Tasks) (ids : List TaskId) (t : Task) : List TaskId :=
  (upstream tasks t).filter (· ∈ ids)

def waiting (tasks : Tasks) (t : Task) : List TaskId :=
  t.dependsOn.filter (¬ Done tasks ·)

def order (tasks : Tasks) (ids : List TaskId) : TaskId × Task → Check
  | (id, t) =>
    if reached tasks ids t ≠ [] then
      .ok s!"task {id.val} depends on task {leastName (reached tasks ids t)}"
    else if waiting tasks t ≠ [] then .ok s!"task {id.val} waits on task {leastName (waiting tasks t)}"
    else .ok none

def traits (t : Task) : Option String × String × String :=
  (t.lane, orElse t.profile "", t.kindOf)

def size (t : Task) : ℕ :=
  (t.difficulty.bind minutes).getD 0

def refusal (group : Group) (tasks : Tasks) (ceiling : ℕ) : Check :=
  let rows := group.map Prod.snd
  if 1 < (rows.map traits).dedup.length then .ok (some "grouped tasks share the same lane, profile and kind")
  else (Check.firstOf standing group).orNext <|
    (Check.firstOf (order tasks (group.map Prod.fst)) group).orNext <|
    if maxTasks < rows.length then .ok s!"a group holds at most {maxTasks} tasks"
    else if (∃ t ∈ rows, t.difficulty ≠ some "S") ∧ ceiling < (rows.map size).sum then
      .ok s!"together they pass {ceiling} minutes of work"
    else .ok none

-- The document's tasks with the refusals of one mutation.
structure State where
  tasks   : Tasks
  refused : List String

def State.refuse (s : State) (reason : String) : State :=
  { s with refused := s.refused ++ [reason] }

abbrev Result := Except Raised (Bool × State)

def State.reject (s : State) (reason : String) : Result :=
  .ok (false, s.refuse reason)

-- An operation as its check lets it through.
structure GroupOp where
  by_      : String
  lead     : TaskId
  members  : List TaskId
  nonempty : members ≠ []
  nodup    : members.Nodup
  apart    : lead ∉ members
  bounded  : members.length + 1 ≤ maxTasks

structure UngroupOp where
  by_     : String
  lead    : TaskId
  ifMatch : Option (List TaskId)

-- The fields of an update that a group depends on.
structure Fields where
  state      : Option String
  claimedBy  : Option String
  profile    : Option String
  kind       : Option String
  difficulty : Option String
  dependsOn  : Option (List TaskId)
  parkedOn   : Option (List TaskId)

-- What the other checks of an update say. `relayed` is the verdict on an operator's rank that the update relays;
-- `plan`, `refusal` and `proof` are refusals, and under a `hold` the update changes nothing.
structure Checks where
  relayed : Option (Option String)
  skipped : Bool
  plan    : Option String
  hold    : Bool
  refusal : Option String
  proof   : Option String

structure UpdateOp where
  task   : TaskId
  fields : Fields
  checks : Checks

inductive Op
  | group (op : GroupOp)
  | ungroup (op : UngroupOp)
  | update (op : UpdateOp)

def groupOf (tasks : Tasks) (ids : List TaskId) : Option Group :=
  ids.mapM fun id => (tasks.lookup id).map (id, ·)

def Task.merge (op : GroupOp) (id : TaskId) (t : Task) : Task :=
  if id = op.lead then { t with groupMembers := some op.members }
  else if id ∈ op.members then { t with mergedInto := some op.lead }
  else t

def Task.release (lead : TaskId) (released : List TaskId) (id : TaskId) (t : Task) : Task :=
  let t := if id = lead then { t with groupMembers := none } else t
  if id ∈ released then { t with mergedInto := none } else t

def group (s : State) (op : GroupOp) : Result :=
  match groupOf s.tasks (op.lead :: op.members) with
  | none => .ok (false, s)
  | some rows =>
    match refusal rows s.tasks foldCeiling with
    | .error e         => .error e
    | .ok (some reason) => s.reject s!"tasks/{op.lead.val} cannot lead this group: {reason}"
    | .ok none          => .ok (true, { s with tasks := s.tasks.mapValues (Task.merge op) })

def members (tasks : Tasks) (id : TaskId) : List TaskId :=
  (tasks.lookup id).elim [] Task.members

def mergedInto (tasks : Tasks) (id : TaskId) : Option TaskId :=
  (tasks.lookup id).bind Task.mergedInto

def released (tasks : Tasks) (lead : TaskId) : List TaskId :=
  (members tasks lead).filter (mergedInto tasks · = some lead)

def ungroup (s : State) (op : UngroupOp) : Result :=
  if members s.tasks op.lead = [] then s.reject s!"tasks/{op.lead.val} leads no group"
  else if op.ifMatch.any (· ≠ members s.tasks op.lead) then
    s.reject s!"tasks/{op.lead.val} changed its group members"
  -- A member listed twice is already released when it is reached again.
  else if ¬ (released s.tasks op.lead).Nodup then .error (.keyError "merged_into")
  else .ok (true, { s with tasks := s.tasks.mapValues (Task.release op.lead (released s.tasks op.lead)) })

def Task.write (t : Task) (fields : Fields) : Task where
  state        := fields.state.or t.state
  claimedBy    := fields.claimedBy.getD t.claimedBy
  lane         := if t.kindOf = "plan" ∧ fields.kind.any (· ≠ "plan") then some "eng" else t.lane
  profile      := fields.profile.or t.profile
  kind         := fields.kind.or t.kind
  difficulty   := fields.difficulty.or t.difficulty
  dependsOn    := fields.dependsOn.getD t.dependsOn
  mergedInto   := t.mergedInto
  groupMembers := t.groupMembers

def Task.LaneFits (t : Task) : Prop :=
  t.kindOf = "plan" ↔ t.lane.getD "eng" = "plan"

instance (t : Task) : Decidable t.LaneFits :=
  inferInstanceAs (Decidable (_ ↔ _))

-- Every id is one of the other tasks.
def Known (tasks : Tasks) (id : TaskId) (ids : List TaskId) : Prop :=
  ∀ d ∈ ids, d ∈ tasks ∧ d ≠ id

instance (tasks : Tasks) (id : TaskId) (ids : List TaskId) : Decidable (Known tasks id ids) :=
  inferInstanceAs (Decidable (∀ d ∈ ids, _))

def write (s : State) (op : UpdateOp) (task : Task) : Result :=
  if ¬ (task.write op.fields).LaneFits then
    .error (.valueError "plan tasks must use the plan lane, and the plan lane accepts only plan tasks")
  else
    match op.checks.proof with
    | some reason => s.reject reason
    | none        => .ok (true, { s with tasks := s.tasks.insert op.task (task.write op.fields) })

def gated (s : State) (op : UpdateOp) : Result :=
  match s.tasks.lookup op.task with
  | none => .ok (false, s)
  | some task =>
    if ¬ Known s.tasks op.task (op.fields.dependsOn.getD [] ++ op.fields.parkedOn.getD []) then .ok (false, s)
    else if op.checks.hold then .ok (true, s)
    else
      match op.checks.refusal with
      | some reason => s.reject reason
      | none        => write s op task

def update (s : State) (op : UpdateOp) : Result :=
  match op.checks.relayed with
  -- A relayed rank is all that is written.
  | some verdict => verdict.elim (.ok (true, s)) s.reject
  | none =>
    if op.checks.skipped then .ok (true, s)
    else
      match op.checks.plan with
      | some reason => s.reject reason
      | none        => gated s op

def perform (laneOf : String → String) (s : State) (verb by_ : String) (op : State → Result) : Result :=
  if laneOf by_ ∈ refusedLanes then
    s.reject s!"{by_} works in the {laneOf by_} lane and cannot {verb} a task group"
  else op s

def apply (laneOf : String → String) (s : State) : Op → Result
  | .group op   => perform laneOf s "set" op.by_ (group · op)
  | .ungroup op => perform laneOf s "release" op.by_ (ungroup · op)
  | .update op  => update s op

-- The tasks of the ledger after an operation.
def after (s : State) : Result → Tasks
  | .ok (_, s') => s'.tasks
  | .error _    => s.tasks

def Result.Applied : Result → Prop
  | .ok (done, _) => done = true
  | .error _      => False

end Grouping
