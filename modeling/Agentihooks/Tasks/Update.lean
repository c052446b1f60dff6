import Mathlib.Algebra.Order.Ring.Rat
import Agentihooks.Library.Finmap
import Agentihooks.Tasks.Document

-- The update of a task: what it is refused for, what gates it, and what it writes.

namespace Tasks

-- The fields that an update may ask to find as it knows them.
inductive Matched
  | claimedBy
  | claimGeneration
  | prUrl
  | awaiting
  | difficulty
  | groupMembers

namespace Matched

abbrev field : Matched → Field
  | claimedBy       => .claimedBy
  | claimGeneration => .claimGeneration
  | prUrl           => .prUrl
  | awaiting        => .awaiting
  | difficulty      => .difficulty
  | groupMembers    => .groupMembers

def default : (m : Matched) → m.field.Value
  | claimedBy | prUrl | awaiting | difficulty => ""
  | claimGeneration => (0 : ℕ)
  | groupMembers => ([] : List String)

def all : List Matched :=
  [claimedBy, claimGeneration, prUrl, awaiting, difficulty, groupMembers]

end Matched

structure Request where
  task    : String
  by_     : String
  fields  : Fields
  ifState : List TaskState
  ifMatch : (m : Matched) → Option m.field.Value

-- An update as its check lets it through: a quote stands by a rank only.
structure UpdateOp extends Request where
  quote              : Option String
  ifPlanLinesMissing : Bool
  updatable          : ∀ f, f.updatable = false → fields f = none
  relays             : quote.isSome → ∀ f, f ≠ .rank → fields f = none

-- The swarm's names, the words its hooks recorded, the holds of its phases and the published plans: what the ledger
-- asks of the rest of the system.
structure Ports where
  laneOf    : String → String
  verified  : String → String → String
  claimHold : Document → Task → String
  taskSlice : Document → Option Phase → String → String → Except String String

def operator : String :=
  "operator"

def swarm : String :=
  "swarm"

def propose : String :=
  "propose the work with agentihooks ledger followup add \"<plain words>\" and the master decides"

namespace Fields

abbrev patched (t patch : Fields) : Fields :=
  PartialRecord.patched t patch

abbrev changed (t patch : Fields) : Fields :=
  PartialRecord.changed t patch

def put (t : Fields) (f : Field) (v : f.Value) : Fields :=
  Function.update t f (some v)

def setDefault (t : Fields) (f : Field) (v : f.Value) : Fields :=
  if (t f).isSome then t else t.put f v

end Fields

section Ranks

def ranks : List String :=
  ["urgent", "high", "normal", "low"]

def aliases : List (String × String) :=
  [("next", "urgent")]

def spoken : List (String × String) :=
  [("urgency", "urgent"), ("urgently", "urgent")]

def unalias (rank : String) : String :=
  (aliases.lookup rank).getD rank

def canonical (rank : String) : Except Raised String :=
  if unalias rank ∈ ranks then .ok (unalias rank)
  else .error (.valueError "rank must be one of ('urgent', 'high', 'normal', 'low'), or next for urgent")

-- Of the other characters only the Kelvin sign and the dotted capital I have an ASCII letter in lower case.
def lower (c : Char) : List Char :=
  if c.val = 0x212a then ['k'] else if c.val = 0x130 then ['i', .ofNat 0x307] else [c.toLower]

def quoted (rank words : String) : Bool :=
  let said  := (words.toList.flatMap lower).splitOnP (fun c => ¬ (97 ≤ c.toNat ∧ c.toNat ≤ 122))
  let names := rank :: ((aliases ++ spoken).filter (·.2 = rank)).map Prod.fst
  3 ≤ ((words.toList.splitOnP Text.space).filter (· ≠ [])).length && names.any (·.toList ∈ said)

def pinned (task : String) (owner : Option String) : Option String :=
  if owner ≠ some operator then none
  else some s!"task {task} has a rank the operator set: relay his words with task set {task} rank=<rank> --quote"

def workerLanes : List String :=
  ["eng", "ci"]

def rankRefusal (ports : Ports) (by_ field : String) : Option String :=
  if field = "rank" then
    if by_ ∈ [operator, swarm, "dispatcher"] ∨ ports.laneOf by_ ∈ ["master", "dispatch"] then none
    else some s!"{by_} cannot set a task rank: {propose}"
  else if ports.laneOf by_ ∈ workerLanes then
    some s!"{by_} works in the {ports.laneOf by_} lane and cannot set a task {field}: {propose}"
  else none

def urgentRefusal (ports : Ports) (task : Task) (doc : Document) : Option String :=
  if task.fields .rank ≠ some "urgent" ∨ (task.fields .state).getD .open_ ≠ .open_ then none
  else if ports.claimHold doc task = "" then none
  else some <| s!"task {task.id} cannot be urgent: {ports.claimHold doc task}" ++
    "; move it to a phase that admits it or lift the hold first"

end Ranks

section Plans

variable (ports : Ports) (doc : Document)

-- The ledger, the kind and the id of an address.
def addressOf (address : String) : Option (Option String × String × String) :=
  let plain (part : List Char) : Bool := part ≠ [] && part.all (!Text.space ·)
  match address.toList.splitOn '/' with
  | [kind, id] => if plain kind && plain id then some (none, .ofList kind, .ofList id) else none
  | [ledgers, ledger, kind, id] =>
    if ledgers = "ledgers".toList && plain ledger && plain kind && plain id then
      some (some (.ofList ledger), .ofList kind, .ofList id)
    else none
  | _ => none

-- The slice that an address names, or why it names none.
def sliceAt (owner address : String) : Except String Slice :=
  match addressOf address with
  | some (some ledger, _, _) =>
    .error s!"{owner} names {address} on ledger {ledger}: a parent lives on the same ledger, named as slices/<id>"
  | none => .error s!"{owner} needs a slice as its parent, not {address}"
  | some (none, kind, id) =>
    if kind ≠ "slices" then .error s!"{owner} needs a slice as its parent, not {address}"
    else
      match doc.slices.find? (·.id = id) with
      | none       => .error s!"{owner} names an unknown slice {address}"
      | some slice => .ok slice

def listed (names : List String) : String :=
  ", ".intercalate names

def orElse (value : Option String) (default : String) : String :=
  if truthy value then value.getD default else default

def taskRefusal (task : Task) : Option String :=
  let t := task.fields
  if ¬ truthy (t .slice) then none
  else
    let address := (t .slice).getD ""
    let owner   := s!"task {task.id}"
    match sliceAt doc owner address with
    | .error reason => some reason
    | .ok slice =>
      let home   := slice.phase.getD "None"
      let phase  := (t .phase).getD "None"
      let named  := orElse (t .phase) "none"
      let anchor := (t .planSlice).getD ""
      let lines  := (t .planLines).getD ""
      if slice.phase ≠ some s!"phases/{phase}" then
        some s!"{owner} is in phase {named} but its slice {address} belongs to {home}"
      else if anchor ≠ "" ∧ anchor ≠ slice.anchor then
        some s!"{owner} plan_slice {anchor} differs from its slice anchor {slice.anchor}"
      else if lines ≠ "" ∧ slice.lines ≠ "" ∧ lines ≠ slice.lines then
        some s!"{owner} plan_lines {lines} differ from its slice lines {slice.lines}"
      else none

def withPlanSlice (fields : Fields) : Fields :=
  if fields .planSlice = some "none" then
    Fields.put (Function.update (Function.update fields .planSlice none) .slice none) .followUp true
  else
    match doc.slices.find? (fun slice => some s!"slices/{slice.id}" = fields .slice) with
    | none       => fields
    | some slice =>
      if slice.lines = "" ∨ (fields .planSlice).isSome then fields else fields.put .planSlice slice.anchor

-- What moves with a task that an update puts into another phase.
def movePlan (task fields : Fields) (phase : Option Phase) : Fields :=
  if fields .phase = none ∨ fields .phase = task .phase then fields
  else
    let source := (task .phase).bind doc.phase
    let sliced := truthy (fields .planSlice)
    let fields := fields.put .planLines ""
    let fields :=
      if fields .planUrl = none ∧ (sliced ∨ task .planUrl = source.bind Phase.planUrl) then
        fields.put .planUrl (if sliced then (phase.bind Phase.planUrl).getD "" else "")
      else fields
    let fields :=
      if sliced ∨ truthy (fields .slice) then fields.setDefault .followUp false
      else if (phase.bind Phase.planRef).isSome ∨ truthy (phase.bind Phase.planUrl) then
        fields.setDefault .followUp true
      else fields
    let fields := fields.setDefault .planSlice ""
    if truthy (task .slice) then fields.setDefault .slice "" else fields

-- The task that leads the group of a task.
def lead (task : Task) : String :=
  orElse (task.fields .mergedInto) task.id

def sharers (task : Task) : List String :=
  if ¬ truthy (task.fields .planLines) then []
  else
    (doc.tasks.filter fun other =>
      other.id ≠ task.id ∧ other.fields .state ≠ some .done ∧ other.fields .phase = task.fields .phase ∧
        other.fields .planLines = task.fields .planLines ∧ lead other ≠ lead task).map Task.id

def sharedRefusal (task : Task) : Option String :=
  let anchor := (task.fields .planSlice).getD ""
  let others := listed (sharers doc task)
  if anchor = "" ∨ sharers doc task = [] then none
  else some <| s!"plan slice {anchor} already belongs to open task {others}: give each task its own slice anchor, " ++
    "a <!-- slice: name --> line above its own row or section, or group the tasks into one grouped task"

def Task.with (task : Task) (fields : Fields) : Task :=
  { task with fields := task.fields.patched fields }

-- The fields of an update with what its phase, its slice and its plan slice set besides.
def setSlice (op : Request) : Except String Fields :=
  match doc.task op.task with
  | none      => .ok op.fields
  | some task =>
    if op.ifState ≠ [] ∧ (task.fields .state).getD .open_ ∉ op.ifState then .ok op.fields
    else
      let target := (op.fields .phase).or (task.fields .phase)
      let phase  := target.bind doc.phase
      let fields := movePlan doc task.fields op.fields phase
      if fields .followUp = some true then
        if truthy (fields .planSlice) ∨ truthy (fields .slice) then
          .error s!"task {op.task} is a follow up and names no slice: drop plan_slice or follow_up"
        else .ok (((fields.put .planSlice "").put .planLines "").put .slice "")
      else
        match op.fields .planSlice with
        | none      => .ok fields
        | some name =>
          match ports.taskSlice doc phase name (((fields .planUrl).or (task.fields .planUrl)).getD "") with
          | .error reason => .error reason
          | .ok lines     =>
            let fields := fields.put .planLines lines
            if some name = task.fields .planSlice then .ok fields
            else
              match sharedRefusal doc (task.with fields) with
              | some reason => .error reason
              | none        => .ok fields

def parentRefusal (op : Request) : Option String :=
  match doc.task op.task with
  | none      => none
  | some task =>
    if ∀ f ∈ [Field.slice, .phase, .planSlice, .planLines], op.fields f = none then none
    else taskRefusal doc (task.with op.fields)

end Plans

section Gates

variable (ports : Ports) (doc : Document)

-- Every id is one of the other tasks.
def Known (id : String) (ids : List String) : Prop :=
  ∀ d ∈ ids, d ≠ id ∧ (doc.task d).isSome

instance (id : String) (ids : List String) : Decidable (Known doc id ids) :=
  inferInstanceAs (Decidable (∀ d ∈ ids, _))

def guarded (t : Fields) (op : Request) : Bool :=
  (op.ifState ≠ [] && (t .state).getD .open_ ∉ op.ifState) ||
    Matched.all.any fun m => (op.ifMatch m).any fun v => (t m.field).getD m.default ≠ v

def blockAuthor (by_ : String) : Bool :=
  by_ = operator || ports.laneOf by_ = "master"

def heldBlock (stampedBy : Option String) (t : Fields) (op : Request) : Bool :=
  t .state = some .blocked && (op.fields .state).isSome && !blockAuthor ports op.by_ &&
    stampedBy.any (blockAuthor ports)

-- Every dependency is as far as the task needs it.
def ready (t : Fields) : Bool :=
  let dependencies := (t .dependsOn).getD []
  let measured     := dependencies.filter fun d => t.measures (doc.row d)
  let finish       := (t .parkedOn).getD [] ++ if truthy (t .prUrl) then dependencies else measured
  (finish.all fun d => doc.row d .state = some .done) && dependencies.all fun d => (doc.row d).stackable

-- The swarm's claim of an open task.
def claiming (t : Fields) (op : Request) : Bool :=
  op.by_ = swarm && (t .state).getD .open_ = .open_ &&
    (op.fields .state = some .claimed || op.fields .state = some .pr) && truthy (op.fields .claimedBy)

def held (t : Fields) (op : Request) : Bool :=
  claiming t op && !ready doc t

end Gates

section Refusals

variable (ports : Ports) (s : State) (op : Request) (task : Task)

def firstOf : List (Option String) → Option String
  | []      => none
  | r :: rs => r.or (firstOf rs)

def outcomeRefusal : Option String :=
  if (s.outcomes op.task).isSome ∧ ∃ f ∈ [Field.state, .proof, .prUrl, .claimedBy], (op.fields f).isSome then
    some "committed outcomes require controller reconciliation"
  else none

def parkRefusal : Option String :=
  let after := task.fields.patched op.fields
  if (op.fields .parkedOn).getD [] = [] ∨ (truthy (after .branch) ∧ truthy (after .stackedBase)) ∨ after.readOnly then
    none
  else some <| s!"tasks/{op.task} cannot be parked without a branch and a stacked base: " ++
    "park it with agentihooks swarm park"

def urgentUpdateRefusal : Option String :=
  if op.fields .rank = none ∧ op.fields .phase = none then none
  else
    let after := task.fields.patched op.fields
    urgentRefusal ports { task with fields := Function.update after .rank ((after .rank).map unalias) } s.doc

def updateRefusal : Option String :=
  firstOf [
    outcomeRefusal s op,
    (op.fields .rank).bind fun _ => rankRefusal ports op.by_ "rank",
    (op.fields .difficulty).bind fun _ => rankRefusal ports op.by_ "difficulty",
    (op.fields .phase).bind fun _ => rankRefusal ports op.by_ "phase",
    (op.fields .rank).bind fun _ => pinned op.task (s.author (.task op.task .rank)),
    (op.fields .phase).bind fun phase =>
      if (s.doc.phase phase).isSome then none
      else some s!"phase {phase} is not on this ledger: name one of its phase ids",
    parkRefusal op task,
    urgentUpdateRefusal ports s op task]

def sliceIds (t : Fields) : List String :=
  let slice := ((t .proof).bind (·.lookup "slice")).getD ""
  (slice.toList.splitOn ',').map (Text.strip ∘ String.ofList)

def invalidSlice (t : Fields) (doc : Document) : List String :=
  let unfit id := (doc.task id).all fun u => u.fields .phase ≠ t .phase ∨ u.fields.kindOf = .plan
  ((sliceIds t).filter unfit).map fun id => if id = "" then "<empty>" else id

def unlinkedSlice (t : Fields) (doc : Document) : List String :=
  (doc.tasks.filter fun u => u.id ∈ sliceIds t ∧ ¬ truthy (u.fields .planUrl)).map Task.id

def ranged (doc : Document) (phase : Option Phase) (t : Fields) : Bool :=
  match t .planSlice with
  | none      => false
  | some name =>
    match ports.taskSlice doc phase name "" with
    | .error _  => false
    | .ok lines => t .planLines = some lines

def invalidTasks (t : Fields) (doc : Document) : List String :=
  let phase := (t .phase).bind doc.phase
  (doc.tasks.filter fun u => u.id ∈ sliceIds t ∧ ¬ ranged ports doc phase u.fields).map Task.id

def publish : String :=
  "publish the plan with agentihooks ledger publish-plan <file> --phase <phase id>, then link each task with " ++
    "task set <id> plan_url=<link>"

def sliceRefusal (id : String) (t : Fields) (doc : Document) : Option String :=
  if invalidSlice t doc ≠ [] then
    some s!"tasks/{id} has invalid slice task ids: {listed (invalidSlice t doc)}"
  else if unlinkedSlice t doc ≠ [] then
    some s!"tasks/{id} slice tasks carry no plan link: {listed (unlinkedSlice t doc)}. {publish}"
  else if invalidTasks ports t doc ≠ [] then
    some s!"tasks/{id} slice tasks lack valid plan ranges or anchors: {listed (invalidTasks ports t doc)}"
  else none

def doneRefusal (id : String) (after : Fields) (doc : Document) : Option String :=
  if after .state ≠ some .done then none
  else if after.unmet ≠ [] then
    some s!"tasks/{id} cannot be done without its proof: {listed after.unmet}"
  else if after.kindOf = .plan then sliceRefusal ports id after doc
  else none

end Refusals

section Writes

variable (ports : Ports) (s : State) (mark : ℤ × ℕ)

def sized (fields : Fields) : Fields :=
  if (fields .difficulty).isNone then fields
  else (fields.setDefault .difficultySource "operator").setDefault .difficultyConfidence (1 : ℚ)

def normalized (fields : Fields) : Except Raised Fields :=
  match fields .rank with
  | none      => .ok (sized fields)
  | some rank =>
    match canonical rank with
    | .error e => .error e
    | .ok rank => .ok (sized (fields.put .rank rank))

-- The branches by repository of a task whose branch an update changes.
def moveBranch (branches : Texts) (old new : String) : Texts :=
  .build branches.keys fun repo =>
    ((branches.lookup repo).map fun branch => if branch = old then new else branch).filter (· ≠ "")

def updateFields (task fields : Fields) : Fields :=
  let fields :=
    match fields .contract with
    | none          => fields
    | some contract => fields.put .contract (contract ∪ (task .contract).getD ∅)
  let branches := (task .repositoryBranches).getD ∅
  let fields :=
    match fields .branch, task .branch with
    | some new, some old =>
      if fields .repositoryBranches = none ∧ (branches.keys.filter (branches.lookup · = some old)).card = 1 then
        fields.put .repositoryBranches (moveBranch branches old new)
      else fields
    | _, _ => fields
  if task.kindOf = .plan ∧ (fields .kind).getD .plan ≠ .plan ∧ fields .lane = none then fields.put .lane .eng
  else fields

def changed (task fields : Fields) (op : Request) : Fields :=
  let changed := task.changed fields
  let changed :=
    if (changed .claimedBy).isSome then changed.put .claimGeneration ((task .claimGeneration).getD 0 + 1) else changed
  let changed :=
    match fields .rank with
    | none      => changed
    | some rank => if s.author (.task op.task .rank) ≠ some op.by_ then changed.put .rank rank else changed
  if fields .state = some .blocked ∧ blockAuthor ports op.by_ then changed.put .state .blocked else changed

def applied (task changed : Fields) : Fields :=
  match changed .state with
  | none       => task.patched changed
  | some state => (task.patched changed).put .done (state = .done)

def applyUpdate (op : Request) (changed : Fields) : State :=
  { s with
    doc    := s.doc.modify op.task (applied · changed)
    stamps := fun
      | .task id f =>
        if id = op.task ∧ (changed f).isSome then some ⟨mark.1, mark.2, op.by_⟩ else s.stamps (.task id f)
      | path => s.stamps path }

-- What an update that nothing gates or refuses writes.
def write (op : Request) (task : Task) : Result :=
  match normalized op.fields with
  | .error e   => .error e
  | .ok fields =>
    let fields := updateFields task.fields fields
    let after  := task.fields.patched fields
    if ¬ after.LaneFits then
      .error (.valueError "plan tasks must use the plan lane, and the plan lane accepts only plan tasks")
    else
      match doneRefusal ports op.task after s.doc with
      | some reason => s.reject reason
      | none        => .ok (true, applyUpdate s mark op (changed ports s task.fields fields op))

-- A failed guard, a held block or an unmet dependency.
def gated (op : Request) (task : Task) : Bool :=
  heldBlock ports (s.author (.task op.task .state)) task.fields op || guarded task.fields op ||
    held s.doc task.fields op

def update (op : Request) : Result :=
  match s.doc.task op.task with
  | none      => .ok (false, s)
  | some task =>
    if ¬ Known s.doc op.task ((op.fields .dependsOn).getD [] ++ (op.fields .parkedOn).getD []) then .ok (false, s)
    else if gated ports s op task then .ok (true, s)
    else
      match updateRefusal ports s op task with
      | some reason => s.reject reason
      | none        => write ports s mark op task

end Writes

section Relay

variable (ports : Ports) (s : State) (mark : ℤ × ℕ)

def unrelayedRole (by_ : String) : String :=
  s!"a rank relay refused: {by_} is not the ledger's orchestrator; only the master relays the operator's rank, " ++
    "anyone else sets the rank without a quote"

def unrelayedWords : String :=
  "a rank relay refused: the quote is not at least three of the operator's exact words the hooks recorded " ++
    "in a master or planner session of this swarm: quote his exact words or set the rank without a quote"

def unrelayedRank (rank : String) : String :=
  s!"a rank relay refused: the operator's quoted words do not name the rank {rank}: quote words that say it " ++
    "or set the rank without a quote"

def relayed (by_ quote : String) : String :=
  if s.roles by_ = some "orchestrator" then ports.verified by_ quote else ""

def relayRefusal (by_ rank words : String) : Option String :=
  if s.roles by_ ≠ some "orchestrator" then some (unrelayedRole by_)
  else if words = "" then some unrelayedWords
  else if ¬ quoted rank words then some (unrelayedRank rank)
  else none

def relayRank (op : Request) (quote : String) : Result :=
  match canonical ((op.fields .rank).getD "") with
  | .error e => .error e
  | .ok rank =>
    match s.doc.task op.task with
    | none      => s.reject "a rank relay refused: the task does not exist"
    | some task =>
      match relayRefusal s op.by_ rank (relayed ports s op.by_ quote) with
      | some reason => s.reject reason
      | none        =>
        match urgentRefusal ports { task with fields := task.fields.put .rank rank } s.doc with
        | some reason => s.reject reason
        | none        =>
          let doc := s.doc.modify op.task (·.put .rank rank)
          .ok (true, { s with doc }.stamp (.task op.task .rank) ⟨mark.1, mark.2, operator⟩)

end Relay

-- `task_update`
def apply (ports : Ports) (s : State) (mark : ℤ × ℕ) (op : UpdateOp) : Result :=
  match op.quote with
  | some quote => relayRank ports s mark op.toRequest quote
  | none       =>
    if op.ifPlanLinesMissing ∧ truthy (s.doc.row op.task .planLines) then .ok (true, s)
    else
      let op := { op.toRequest with fields := withPlanSlice s.doc op.fields }
      match setSlice ports s.doc op with
      | .error reason => s.reject reason
      | .ok fields    =>
        let op := { op with fields }
        match parentRefusal s.doc op with
        | some reason => s.reject reason
        | none        => update ports s mark op

end Tasks
