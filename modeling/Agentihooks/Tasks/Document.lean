import Mathlib.Data.Fintype.Pi
import Mathlib.Data.Rat.Defs
import Mathlib.Data.List.Nodup
import Agentihooks.Library.PartialRecord
import Agentihooks.Library.Text
import Agentihooks.Objects.Rows

-- A task of a ledger and what its kind demands as proof before it is done.

namespace Tasks

abbrev Texts := Dict String String

inductive TaskState
  | open_
  | claimed
  | blocked
  | pr
  | done
  deriving DecidableEq

inductive Kind
  | code
  | ci
  | ops
  | troubleshoot
  | tune
  | research
  | plan
  | workflow
  deriving DecidableEq

inductive Lane
  | eng
  | ci
  | plan
  deriving DecidableEq

inductive Field
  | state
  | claimedBy
  | issueUrl
  | prUrl
  | description
  | dependsOn
  | territory
  | kind
  | contract
  | proof
  | workspace
  | awaiting
  | artifact
  | profile
  | planUrl
  | planSlice
  | rank
  | branch
  | branchRepo
  | repositories
  | repositoryBranches
  | stackedBase
  | parkedOn
  | parkedRepos
  | overlays
  | difficulty
  | difficultySource
  | difficultyConfidence
  | phase
  | slice
  | followUp
  | splitPulls
  | pullScopes
  | afterRelease
  | appliedAt
  | workstation
  | needs
  | docItems
  | watchdog
  | recovery
  | lane
  | planLines
  | claimGeneration
  | groupMembers
  | mergedInto
  | done
  deriving DecidableEq

namespace Field

def all : List Field :=
  [.state, .claimedBy, .issueUrl, .prUrl, .description, .dependsOn, .territory, .kind, .contract, .proof, .workspace,
    .awaiting, .artifact, .profile, .planUrl, .planSlice, .rank, .branch, .branchRepo, .repositories,
    .repositoryBranches, .stackedBase, .parkedOn, .parkedRepos, .overlays, .difficulty, .difficultySource,
    .difficultyConfidence, .phase, .slice, .followUp, .splitPulls, .pullScopes, .afterRelease, .appliedAt,
    .workstation, .needs, .docItems, .watchdog, .recovery, .lane, .planLines, .claimGeneration, .groupMembers,
    .mergedInto, .done]

instance : Fintype Field :=
  .ofList all fun f => by cases f <;> decide

abbrev Value : Field → Type
  | state => TaskState
  | kind => Kind
  | lane => Lane
  | claimGeneration => ℕ
  | difficultyConfidence => ℚ
  | artifact | followUp | workstation | done => Bool
  | contract | proof | repositoryBranches => Texts
  | pullScopes | watchdog | recovery => Json
  | dependsOn | territory | repositories | parkedOn | parkedRepos | overlays | splitPulls | needs | docItems
  | groupMembers => List String
  | claimedBy | issueUrl | prUrl | description | workspace | awaiting | profile | planUrl | planSlice | rank | branch
  | branchRepo | stackedBase | difficulty | difficultySource | phase | slice | afterRelease | appliedAt | planLines
  | mergedInto => String

instance : (f : Field) → DecidableEq f.Value
  | state => inferInstanceAs (DecidableEq TaskState)
  | kind => inferInstanceAs (DecidableEq Kind)
  | lane => inferInstanceAs (DecidableEq Lane)
  | claimGeneration => inferInstanceAs (DecidableEq ℕ)
  | difficultyConfidence => inferInstanceAs (DecidableEq ℚ)
  | artifact | followUp | workstation | done => inferInstanceAs (DecidableEq Bool)
  | contract | proof | repositoryBranches => inferInstanceAs (DecidableEq Texts)
  | pullScopes | watchdog | recovery => inferInstanceAs (DecidableEq String)
  | dependsOn | territory | repositories | parkedOn | parkedRepos | overlays | splitPulls | needs | docItems
  | groupMembers => inferInstanceAs (DecidableEq (List String))
  | claimedBy | issueUrl | prUrl | description | workspace | awaiting | profile | planUrl | planSlice | rank | branch
  | branchRepo | stackedBase | difficulty | difficultySource | phase | slice | afterRelease | appliedAt | planLines
  | mergedInto => inferInstanceAs (DecidableEq String)

-- What a `task_update` may set.
def updatable (f : Field) : Bool :=
  f ∉ [lane, planLines, claimGeneration, groupMembers, mergedInto, done]

-- What naming a phase or a slice of its plan sets besides.
def planned (f : Field) : Bool :=
  f ∈ [planLines, planUrl, planSlice, slice, followUp]

end Field

abbrev Fields := PartialRecord Field.Value

instance : DecidableEq Fields :=
  inferInstanceAs (DecidableEq ((f : Field) → Option f.Value))

-- `others` holds the fields that no operation here reads or writes.
structure Task where
  id     : String
  fields : Fields
  others : Json
  deriving DecidableEq

def truthy (text : Option String) : Bool :=
  text.any (· ≠ "")

namespace Fields

def kindOf (t : Fields) : Kind :=
  (t .kind).getD .code

def branched : List Kind :=
  [.code, .ci]

def after (t : Fields) : Bool :=
  t.kindOf ∈ branched && (t .contract).bind (·.lookup "after") = some "yes"

def readOnly (t : Fields) : Bool :=
  t.kindOf ∉ branched

def workflowProof : List (String × String) :=
  [("workflow", "passed"), ("verdict", "pass")]

def needs : Kind → List String
  | .plan         => ["slice"]
  | .ops          => ["command", "output"]
  | .tune         => ["command", "output"]
  | .troubleshoot => ["root_cause", "evidence"]
  | .research     => ["finding"]
  | .workflow     => workflowProof.map Prod.fst
  | .code | .ci   => []

-- `^https?://[^\s]+$`
def isLink (text : String) : Bool :=
  ["http://", "https://"].any fun scheme =>
    let rest := text.toList.drop scheme.length
    scheme.toList.isPrefixOf text.toList && rest ≠ [] && rest.all (!Text.space ·)

-- The proof fields a task lacks before it may be done.
def unmet (t : Fields) : List String :=
  let proof     := (t .proof).getD ∅
  let given key := Text.strip ((proof.lookup key).getD "") ≠ ""
  let missing   := (if t.after then ["command", "output"] else needs t.kindOf).filter (¬ given ·)
  match t.kindOf with
  | .troubleshoot => if given "fix" ∨ given "filed" then missing else missing ++ ["fix or filed"]
  | .research     =>
    if "finding" ∉ missing ∧ ¬ isLink (Text.strip ((proof.lookup "finding").getD "")) then missing ++ ["finding"]
    else missing
  | .workflow     =>
    (workflowProof.filter fun need => (proof.lookup need.1).map Text.strip ≠ some need.2).map Prod.fst
  | _             => missing

-- The lane of a plan task is the plan lane, and no other task's is.
def LaneFits (t : Fields) : Prop :=
  t.kindOf = .plan ↔ (t .lane).getD .eng = .plan

instance (t : Fields) : Decidable t.LaneFits :=
  inferInstanceAs (Decidable (_ ↔ _))

-- A task that another may be stacked on: done, or claimed with a branch.
def stackable (t : Fields) : Bool :=
  t .state = some .done || (t .state ∈ [some .claimed, some .pr] && truthy (t .branch))

def measures (t dependency : Fields) : Bool :=
  t .kind = some .tune && !dependency.readOnly

end Fields

end Tasks

-- A ledger as its task operations see it: the tasks with the phases and the slices they belong to, the stamps of who
-- set what, and the receipts of delivered outcomes.

namespace Tasks

inductive ReviewState
  | pending
  | approved
  | sentBack
  deriving DecidableEq

structure Review where
  state     : ReviewState
  by_       : String
  at_       : ℤ
  rounds    : ℕ
  note      : String
  notes     : List String
  escalated : Option Bool
  override_ : Option Json
  deriving DecidableEq

structure Phase where
  id      : String
  planUrl : Option String
  planRef : Option Json
  review  : Option Review
  others  : Json
  deriving DecidableEq

structure Slice where
  id     : String
  phase  : Option String
  anchor : String
  lines  : String
  deriving DecidableEq

structure Document where
  tasks      : List Task
  phases     : List Phase
  slices     : List Slice
  priorities : List String
  nodup      : (tasks.map Task.id).Nodup

namespace Document

variable (doc : Document) {id j : String} {t : Task} {g : Fields → Fields}

def task (id : String) : Option Task :=
  doc.tasks.find? (·.id = id)

def phase (id : String) : Option Phase :=
  doc.phases.find? (·.id = id)

-- The fields of a task, none of them when there is no such task.
def row (id : String) : Fields :=
  (doc.task id).elim .empty Task.fields

def rewrite (id : String) (g : Fields → Fields) (t : Task) : Task :=
  if t.id = id then { t with fields := g t.fields } else t

@[simp]
theorem rewrite_id : (rewrite id g t).id = t.id := by
  unfold rewrite
  split_ifs <;> rfl

def modify (id : String) (g : Fields → Fields) : Document where
  tasks      := doc.tasks.map (rewrite id g)
  phases     := doc.phases
  slices     := doc.slices
  priorities := doc.priorities
  nodup      := by simpa [Function.comp_def] using doc.nodup

variable {doc}

theorem id_of_task (h : doc.task id = some t) : t.id = id :=
  of_decide_eq_true (List.find?_some h :)

theorem task_modify : (doc.modify id g).task j = (doc.task j).map (rewrite id g) := by
  simp [task, modify, List.find?_map, Function.comp_def]

theorem task_modify_self (h : doc.task id = some t) :
    (doc.modify id g).task id = some { t with fields := g t.fields } := by
  simp [task_modify, h, rewrite, id_of_task h]

theorem task_modify_ne (h : j ≠ id) : (doc.modify id g).task j = doc.task j := by
  rw [task_modify]
  cases ht : doc.task j
  case none   => rfl
  case some t => simp [rewrite, id_of_task ht, h]

-- In a document every task is found by its id.
theorem task_of_mem (h : t ∈ doc.tasks) : doc.task t.id = some t := by
  obtain ⟨u, hu⟩ : ∃ u, doc.task t.id = some u :=
    Option.isSome_iff_exists.mp (List.find?_isSome.mpr ⟨t, h, by simp⟩)
  have he := List.inj_on_of_nodup_map doc.nodup (List.mem_of_find?_eq_some hu) h (id_of_task hu)
  rw [hu, he]

end Document

structure Stamp where
  at_ : ℤ
  rev : ℕ
  by_ : String
  deriving DecidableEq

inductive Path
  | task (id : String) (f : Field)
  | review (phase : String)
  deriving DecidableEq

structure Proposal where
  taskId       : String
  prUrl        : String
  headSha      : String
  proof        : Texts
  taskRevision : Task
  deriving DecidableEq

inductive OutcomePhase
  | accepted
  | unknown
  | committed
  | externallyVerified
  deriving DecidableEq

-- `taskRevision` and the digest of a receipt stand for the values that the source hashes.
structure Outcome where
  operationId : String
  providerId  : String
  proposal    : Proposal
  phase       : OutcomePhase
  mergeSha    : Option String
  deriving DecidableEq

structure Digest where
  providerId : String
  taskId     : String
  prUrl      : String
  headSha    : String
  proof      : Texts
  mergeSha   : String
  deriving DecidableEq

structure Receipt where
  operationId : String
  digest      : Digest
  deriving DecidableEq

structure State where
  doc      : Document
  stamps   : Path → Option Stamp
  outcomes : String → Option Receipt
  roles    : String → Option String
  refused  : List String

namespace State

variable (s : State)

def author (path : Path) : Option String :=
  (s.stamps path).map Stamp.by_

def stamp (path : Path) (mark : Stamp) : State :=
  { s with stamps := Function.update s.stamps path (some mark) }

def refuse (reason : String) : State :=
  { s with refused := s.refused ++ [reason] }

end State

-- What an operation may raise; it changes nothing then.
inductive Raised
  | keyError (key : String)
  | valueError (text : String)
  deriving DecidableEq

abbrev Result := Except Raised (Bool × State)

def State.reject (s : State) (reason : String) : Result :=
  .ok (false, s.refuse reason)

end Tasks
