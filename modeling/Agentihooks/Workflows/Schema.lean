import Mathlib.Data.Finset.Union
import Mathlib.Data.Int.Order.Basic
import Mathlib.Logic.Function.Iterate
import Agentihooks.Objects.Rows

-- Workflow and stage primitives: defaults and validation of a parsed workflow file.

namespace Workflows

-- A value as the file was loaded. `other` is of a type that no check asks for.
inductive Yaml
  | null
  | bool (b : Bool)
  | int (n : ℤ)
  | text (s : String)
  | list (items : List Yaml)
  | map (entries : List (Yaml × Yaml))
  | other (printed : String)

abbrev Mapping := List (Yaml × Yaml)

namespace Yaml

def isText (s : String) : Yaml → Bool
  | .text t => t = s
  | _       => false

def text? : Yaml → Option String
  | .text s => some s
  | _       => none

def isNull : Yaml → Bool
  | .null => true
  | _     => false

def isPositive : Yaml → Bool
  | .int n => 1 ≤ n
  | _      => false

def isName (y : Yaml) : Bool :=
  y.text?.isSome

-- A list of names.
def names? : Yaml → Option (List String)
  | .list items => if items.all isName then some (items.filterMap text?) else none
  | _           => none

def asText (y : Yaml) : String :=
  y.text?.getD ""

def asNat : Yaml → ℕ
  | .int n => n.toNat
  | _      => 0

end Yaml

def Mapping.get (m : Mapping) (key : String) : Option Yaml :=
  (m.find? (·.1.isText key)).map Prod.snd

inductive Outcome
  | pass
  | retry
  | enhance
  deriving DecidableEq

namespace Outcome

def all : List Outcome :=
  [pass, retry, enhance]

def name : Outcome → String
  | pass    => "pass"
  | retry   => "retry"
  | enhance => "enhance"

def ofName (s : String) : Option Outcome :=
  all.find? (·.name = s)

end Outcome

inductive Level
  | workflow
  | stage

def documentKeys : List String :=
  ["workflow", "stages"]

def workflowRequired : List String :=
  ["name", "intent", "head", "exit"]

def workflowDefaults : List (String × Yaml) :=
  [("max_iterations", .int 3), ("on_exhausted", .text "block")]

def stageRequired : List String :=
  ["profile"]

def nextDefaults : List (String × Yaml) :=
  Outcome.all.map fun o => (o.name, .null)

def stageDefaults : List (String × Yaml) :=
  [("tier", .text "high"), ("effort", .text "medium"), ("count", .int 1), ("input", .list []), ("filters", .list []),
    ("iterations", .int 1), ("exit", .null), ("next", .map (nextDefaults.map fun d => (.text d.1, d.2)))]

def tiers : List String :=
  ["high", "low"]

def onExhausted : List String :=
  ["block", "escalate", "keep-best"]

def case_ : String :=
  "case"

def exit : String :=
  "exit"

def isNameChar (c : Char) : Bool :=
  c.isAlphanum || c = '_' || c = '-'

-- `STAGE_PASS`: the stage that an exit names. `$` also stands before a newline at the end.
def stagePass (exit : String) : Option String :=
  let cs := exit.toList
  let cs := if cs.getLast? = some '\n' then cs.dropLast else cs
  let name := cs.take (cs.length - 5)
  if name ≠ [] ∧ name.all isNameChar ∧ cs.drop (cs.length - 5) = ['.', 'p', 'a', 's', 's'] then some (String.ofList name)
  else none

def textKeys : Level → List String
  | .workflow => ["name", "intent", "head", "exit"]
  | .stage    => ["profile", "effort"]

def countKeys : Level → List String
  | .workflow => ["max_iterations"]
  | .stage    => ["count", "iterations"]

def listKeys : List String :=
  ["input", "filters"]

structure Stage where
  id         : String
  profile    : String
  tier       : String
  effort     : String
  count      : ℕ
  input      : List String
  filters    : List String
  iterations : ℕ
  exit       : Option String
  next       : Outcome → Option String

structure Workflow where
  name          : String
  intent        : String
  head          : String
  maxIterations : ℕ
  exit          : String
  onExhausted   : String
  stages        : List (String × Stage)

def Workflow.stage (w : Workflow) (id : String) : Option Stage :=
  w.stages.lookup id

section Checks

-- How a value is printed in a message.
variable (str : Yaml → String)

def unknownKeys (body : Mapping) (allowed : List String) (place : String) : List String :=
  (body.filter fun entry => ¬allowed.any fun key => entry.1.isText key).map fun entry =>
    s!"{place}: unknown key {str entry.1}"

def mapping (document : Mapping) (key : String) : Mapping × List String :=
  match document.get key with
  | some (.map entries) => (entries, [])
  | some _              => ([], [s!"{key}: must be a mapping"])
  | none                => ([], [s!"file: missing required key {key}"])

def filled (body : Mapping) (required : List String) (defaults : List (String × Yaml)) (place : String) :
    Mapping × List String :=
  let keys := defaults ++ required.map fun key => (key, .null)
  let fields := keys.map fun d => (Yaml.text d.1, (body.get d.1).getD d.2)
  let others := body.filter fun entry => ¬keys.any fun d => entry.1.isText d.1
  (fields ++ others,
    unknownKeys str body (required ++ defaults.map Prod.fst) place ++
      ((required.filter fun key => (body.get key).isNone).map fun key => s!"{place}: missing required key {key}") ++
      (required.filter fun key => (body.get key).any Yaml.isNull).map fun key => s!"{place}: {key} must not be empty")

def textErrors (fields : Mapping) (level : Level) (place : String) : List String :=
  ((textKeys level).filter fun key => (fields.get key).any fun value => ¬value.isNull ∧ ¬value.isName).map fun key =>
    s!"{place}.{key}: must be text"

def countErrors (fields : Mapping) (level : Level) (place : String) : List String :=
  ((countKeys level).filter fun key => ¬(fields.get key).any Yaml.isPositive).map fun key =>
    s!"{place}.{key}: must be a positive integer"

def choiceErrors (fields : Mapping) (level : Level) (place : String) : List String :=
  let (key, allowed) : String × List String := match level with
    | .workflow => ("on_exhausted", onExhausted)
    | .stage    => ("tier", tiers)
  let value := (fields.get key).getD .null
  if allowed.any fun choice => value.isText choice then []
  else [s!"{place}.{key}: {str value} is not one of " ++ ", ".intercalate allowed]

def stageValueErrors (fields : Mapping) (place : String) : List String :=
  ((listKeys.filter fun key => ((fields.get key).bind Yaml.names?).isNone).map fun key =>
    s!"{place}.{key}: must be a list of names") ++
  if (fields.get "exit").any fun value => ¬value.isNull ∧ ¬value.isName then [s!"{place}.exit: must be text or null"]
  else []

def checkValues (fields : Mapping) (level : Level) (place : String) : List String :=
  textErrors fields level place ++ countErrors fields level place ++ choiceErrors str fields level place ++
    match level with
    | .workflow => []
    | .stage    => stageValueErrors fields place

-- The fields of a stage: a bad list of names is read as none.
structure StageFields where
  fields : Mapping
  next   : Mapping

def StageFields.names (f : StageFields) (key : String) : List String :=
  ((f.fields.get key).bind Yaml.names?).getD []

def stageFields (id body : Yaml) : StageFields × List String :=
  let place := s!"stages.{str id}"
  let named := if id.isName then [] else [s!"{place}: a stage id must be text"]
  let (body, mapped) : Mapping × List String := match body with
    | .map entries => (entries, [])
    | _            => ([], [s!"{place}: must be a mapping"])
  let (fields, found) := filled str body stageRequired stageDefaults place
  let checked := checkValues str fields .stage place
  let (next, errors) := match fields.get "next" with
    | some (.map entries) => filled str entries [] nextDefaults s!"{place}.next"
    | _                   => (nextDefaults.map fun d => (.text d.1, d.2),
      [s!"{place}.next: must be a mapping of pass, retry and enhance"])
  (⟨fields, next⟩, named ++ mapped ++ found ++ checked ++ errors)

abbrev Stages := List (Yaml × StageFields)

def Stages.has (stages : Stages) (id : String) : Bool :=
  stages.any (·.1.isText id)

-- The stages that a value of a `next` mapping names.
def Stages.targets (stages : Stages) (id : String) : List String :=
  ((stages.find? (·.1.isText id)).elim [] fun entry => entry.2.next.filterMap fun e => e.2.text?).filter (stages.has ·)

def reachable (head : String) (stages : Stages) : Finset String :=
  (fun seen => seen ∪ seen.biUnion fun id => (stages.targets id).toFinset)^[stages.length] {head}

def unreachableErrors (head : Yaml) (stages : Stages) : List String :=
  match head.text? with
  | none      => []
  | some head =>
    if stages.has head then
      (stages.filter fun entry => entry.1.text?.all (· ∉ reachable head stages)).map fun entry =>
        s!"stages.{str entry.1}: not reachable from the head {head}"
    else []

def headErrors (head : Mapping) (stages : Stages) : List String :=
  match ((head.get "head").getD .null).text? with
  | some id => if stages.has id then [] else [s!"workflow.head: {id} is not a stage"]
  | none    => []

def exitErrors (head : Mapping) (stages : Stages) : List String :=
  match ((head.get "exit").bind Yaml.text?).bind stagePass with
  | some id => if stages.has id then [] else [s!"workflow.exit: {id} is not a stage"]
  | none    => []

def inputErrors (id : Yaml) (f : StageFields) (stages : Stages) : List String :=
  ((f.names "input").filter fun item => item ≠ case_ ∧ ¬stages.has item).map fun item =>
    s!"stages.{str id}.input: {item} is not case or a stage"

-- A target is a stage, the exit or nothing.
def Stages.allows (stages : Stages) (target : Yaml) : Bool :=
  target.isNull || target.isText exit || target.text?.any (stages.has ·)

def nextErrors (id : Yaml) (f : StageFields) (stages : Stages) : List String :=
  (f.next.filter fun e => Outcome.all.any (fun o => e.1.isText o.name) ∧ ¬stages.allows e.2).map fun e =>
    s!"stages.{str id}.next.{str e.1}: {str e.2} is not a stage, exit or null"

def graphErrors (head : Mapping) (stages : Stages) : List String :=
  headErrors head stages ++ unreachableErrors str ((head.get "head").getD .null) stages ++ exitErrors head stages ++
    stages.flatMap fun entry => inputErrors str entry.1 entry.2 stages ++ nextErrors str entry.1 entry.2 stages

def buildStage (id : Yaml) (f : StageFields) : Stage :=
  let field (key : String) : Yaml := (f.fields.get key).getD .null
  { id         := id.asText
    profile    := (field "profile").asText
    tier       := (field "tier").asText
    effort     := (field "effort").asText
    count      := (field "count").asNat
    input      := f.names "input"
    filters    := f.names "filters"
    iterations := (field "iterations").asNat
    exit       := (field "exit").text?
    next       := fun o => (f.next.get o.name).bind Yaml.text? }

def validate (document : Yaml) : Except (List String) Workflow :=
  match document with
  | .map document =>
    let unknown := unknownKeys str document documentKeys "file"
    let (workflow, missing) := mapping document "workflow"
    let (head, found) := filled str workflow workflowRequired workflowDefaults "workflow"
    let (bodies, absent) := mapping document "stages"
    let read := bodies.map fun entry => (entry.1, stageFields str entry.1 entry.2)
    let stages : Stages := read.map fun entry => (entry.1, entry.2.1)
    let errors := unknown ++ missing ++ found ++ checkValues str head .workflow "workflow" ++ absent ++
      read.flatMap (·.2.2) ++ graphErrors str head stages
    let field (key : String) : Yaml := (head.get key).getD .null
    if errors = [] then
      .ok {
        name          := (field "name").asText
        intent        := (field "intent").asText
        head          := (field "head").asText
        maxIterations := (field "max_iterations").asNat
        exit          := (field "exit").asText
        onExhausted   := (field "on_exhausted").asText
        stages        := stages.map fun entry => (entry.1.asText, buildStage entry.1 entry.2) }
    else .error errors
  | _ => .error ["a workflow file is a mapping with workflow and stages"]

end Checks

end Workflows
