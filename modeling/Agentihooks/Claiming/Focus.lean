import Mathlib.Data.Finset.Card
import Agentihooks.Library.KeyTable
import Agentihooks.Library.Run
import Agentihooks.Library.Worklist

-- The length of the chains of open tasks that wait on a task. Rows are a dictionary by id, in its order.

namespace ClaimOrder

structure Task where
  id        : String
  state     : String
  dependsOn : Option (List String)
  deriving DecidableEq

def Task.isOpen (task : Task) : Bool :=
  task.state ≠ "done"

def wait (task : Task) (waiting : KeyTable String (List String)) (dep : String) : KeyTable String (List String) :=
  waiting.insert dep ((waiting.lookup dep).getD [] ++ [task.id])

-- The open tasks that wait on each task.
def waiting (rows : List Task) : KeyTable String (List String) :=
  rows.foldl (fun waiting task => if task.isOpen then (task.dependsOn.getD []).foldl (wait task) waiting else waiting) ∅

section Depths

variable (waiting : KeyTable String (List String))

theorem unseen_lt {task : String} {seen : List String} (hs : task ∉ seen) (hw : waiting.lookup task ≠ none) :
    (waiting.keys.toFinset \ (task :: seen).toFinset).card < (waiting.keys.toFinset \ seen.toFinset).card := by
  have hk := KeyTable.mem_keys_iff.mpr hw
  refine Finset.card_lt_card (Finset.ssubset_iff_of_subset ?_ |>.mpr ⟨task, ?_, ?_⟩)
  · refine Finset.sdiff_subset_sdiff subset_rfl fun x hx => ?_
    simp only [List.toFinset_cons, Finset.mem_insert]
    exact .inr hx
  · simp [hk, hs]
  · simp

mutual

-- `seen` is the path to the task, and `found` what is known already.
def depth (task : String) (found : KeyTable String ℕ) (seen : List String) (hs : task ∉ seen) :
    ℕ × KeyTable String ℕ :=
  match found.lookup task with
  | some n => (n, found)
  | none   =>
    match hw : waiting.lookup task with
    | none       => (0, found.insert task 0)
    | some tasks =>
      let rest := chains tasks found (task :: seen)
      (rest.1.max?.getD 0, rest.2.insert task (rest.1.max?.getD 0))
termination_by ((waiting.keys.toFinset \ seen.toFinset).card, 0)
decreasing_by exact .left _ _ (unseen_lt waiting hs (by simp [hw]))

def chains : List String → KeyTable String ℕ → List String → List ℕ × KeyTable String ℕ
  | [],            found, _    => ([], found)
  | task :: tasks, found, seen =>
    if hs : task ∈ seen then chains tasks found seen else
    let first := depth task found seen hs
    let rest := chains tasks first.2 seen
    ((first.1 + 1) :: rest.1, rest.2)
termination_by tasks _ seen => ((waiting.keys.toFinset \ seen.toFinset).card, tasks.length + 1)

end

end Depths

def depths (rows : List Task) : KeyTable String ℕ :=
  let found := rows.foldl (fun found task => (depth (waiting rows) task.id found [] List.not_mem_nil).2) ∅
  .ofList (rows.map fun task => (task.id, (found.lookup task.id).getD 0))

end ClaimOrder

-- Which tasks a focus of the ledger admits to a claim, and the answer that is kept from the last call.

namespace Focus

structure Task where
  id         : String
  state      : Option String
  phase      : Option String
  slice      : Option String
  lane       : Option String
  kind       : Option String
  mergedInto : Option String
  outOfScope : Bool
  dependsOn  : List String
  parkedOn   : List String
  deriving DecidableEq

structure Record where
  verb   : String
  target : String
  deriving DecidableEq

structure Phase where
  id        : String
  dependsOn : List String
  deriving DecidableEq

structure Doc where
  tasks   : List Task
  freezes : List Record
  phases  : List Phase

-- The parent of every node of the hierarchy.
abbrev Graph := KeyTable String (Option String)

def text (value : Option String) : Bool :=
  value.any (· ≠ "")

def parent (task : Task) : Option String :=
  let found := if ¬ text task.slice ∧ text task.phase then task.phase.map ("phases/" ++ ·) else task.slice
  found.filter (· ≠ "")

def chainLimit : ℕ := 64

-- Adds a node and those above it to a chain, at most so many.
def climb (graph : Graph) : ℕ → List String → Option String → List String
  | 0,     chain, _       => chain
  | _ + 1, chain, none    => chain
  | n + 1, chain, some up =>
    if up = "" ∨ up ∈ chain then chain else climb graph n (chain ++ [up]) (graph.lookup up).join

def ancestry (task : Task) (graph : Graph) : List String :=
  let roots := parent task :: if text task.mergedInto then [task.mergedInto.map ("tasks/" ++ ·)] else []
  roots.foldl (climb graph (chainLimit - 1)) ["tasks/" ++ task.id]

def kind (task : Task) : String :=
  (task.kind.filter (· ≠ "")).getD "code"

def covers (target : String) (task : Task) (chain : List String) : Bool :=
  let selector := String.ofList (target.toList.takeWhile (· ≠ ':'))
  let value    := String.ofList (target.toList.dropWhile (· ≠ ':')).tail
  if selector = "lane" ∧ value ≠ "" then task.lane = some value
  else if selector = "kind" ∧ value ≠ "" then kind task = value
  else target ∈ chain

-- How far up the nearest record of the verb is that covers the task.
def nearest (records : List Record) (verb : String) (task : Task) (chain : List String) : Option ℕ :=
  let targets := (records.filter (·.verb = verb)).map (·.target)
  ((targets.filter (covers · task chain)).map fun t => if t ∈ chain then chain.idxOf t else chain.length).min?

def frozen (task : Task) (records : List Record) (chain : List String) : Bool :=
  match nearest records "freeze" task chain, nearest records "focus" task chain with
  | none,        _            => false
  | some _,      none         => true
  | some freeze, some focus   => freeze < focus

-- The last task of an id stands for it.
def row (doc : Doc) (id : String) : Option Task :=
  doc.tasks.reverse.find? (·.id = id)

def after (doc : Doc) (phase : Option String) : List String :=
  ((doc.phases.reverse.find? fun p => some p.id = phase).map (·.dependsOn)).getD []

def members (doc : Doc) (phase : String) : List String :=
  (doc.tasks.filter (·.phase = some phase)).map (·.id)

def waitsOn (doc : Doc) (task : Task) : List String :=
  task.dependsOn ++ task.parkedOn ++ (after doc task.phase).flatMap (members doc)

-- Every id that a document names as one of a task.
def ids (doc : Doc) : Finset String :=
  (doc.tasks.flatMap fun task => task.id :: (task.dependsOn ++ task.parkedOn)).toFinset

section Ids

variable {doc : Doc} {task : Task} {id : String}

theorem mem_ids (h : task ∈ doc.tasks) : task.id ∈ ids doc :=
  List.mem_toFinset.mpr (List.mem_flatMap.mpr ⟨task, h, List.mem_cons_self⟩)

theorem mem_of_row (h : row doc id = some task) : task ∈ doc.tasks :=
  List.mem_reverse.mp (List.mem_of_find?_eq_some h)

theorem waitsOn_ids (ht : task ∈ doc.tasks) (h : id ∈ waitsOn doc task) : id ∈ ids doc := by
  obtain h | h := List.mem_append.mp h
  case inl => exact List.mem_toFinset.mpr (List.mem_flatMap.mpr ⟨task, ht, List.mem_cons_of_mem _ h⟩)
  case inr =>
    obtain ⟨phase, _, hm⟩ := List.mem_flatMap.mp h
    obtain ⟨other, ho, rfl⟩ := List.mem_map.mp hm
    exact mem_ids (List.mem_filter.mp ho).left

end Ids

-- What every id waits on, where the given tasks are told to wait on nothing.
def waits (doc : Doc) (free : Task → Bool) : TargetGraph String where
  next id := (row doc id).elim [] fun task => if free task then [] else waitsOn doc task
  targets := ids doc
  covers id dep h := by
    cases hr : row doc id with
    | none      => simp [hr] at h
    | some task =>
      by_cases hf : free task
      case pos => simp [hr, hf] at h
      case neg => exact waitsOn_ids (mem_of_row hr) (by simpa [hr, hf] using h)

def cold (doc : Doc) (graph : Graph) : List String :=
  if doc.freezes.any (·.verb = "freeze") then
    (doc.tasks.filter fun t => t.state = some "open" ∧ frozen t doc.freezes (ancestry t graph)).map (·.id)
  else []

def stuck (doc : Doc) (graph : Graph) (id : String) (h : id ∈ ids doc) : Bool :=
  ((waits doc (·.state = some "done")).reach (fun _ => false) id h ∅).val ∩ (cold doc graph).toFinset ≠ ∅

def openFocus (task : Task) (focus : List String) (graph : Graph) : Bool :=
  task.state ≠ some "done" ∧ ¬ task.outOfScope ∧ focus.any (covers · task (ancestry task graph))

def focus (doc : Doc) : List String :=
  (doc.freezes.filter (·.verb = "focus")).map (·.target)

def queue (doc : Doc) (graph : Graph) : List { id // id ∈ ids doc } :=
  (doc.tasks.attach.filter fun t => openFocus t.val (focus doc) graph ∧
    ¬ stuck doc graph t.val.id (mem_ids t.property)).map fun t => ⟨t.val.id, mem_ids t.property⟩

theorem queue_ids {doc : Doc} {graph : Graph} : ∀ id ∈ (queue doc graph).map Subtype.val, id ∈ ids doc := by
  intro id h
  obtain ⟨x, _, rfl⟩ := List.mem_map.mp h
  exact x.property

def admitSet (doc : Doc) (graph : Graph) : Option (Finset String) :=
  if focus doc = [] then none else
  let seen := ((waits doc fun _ => false).reachAll (· ∈ cold doc graph) ((queue doc graph).map Subtype.val) queue_ids ∅).val
  if seen = ∅ then none else some seen

-- Documents, and the lists in them, are objects that change in place; a list that is empty or absent is a new object
-- in every call.
structure Object where
  tasks   : Option ℕ
  freezes : Option ℕ
  phases  : List Phase
  deriving DecidableEq

structure Memory where
  docs    : ℕ → Object
  tasks   : ℕ → List Task
  freezes : ℕ → List Record
  graphs  : ℕ → Graph

namespace Memory

def tasksOf (m : Memory) (doc : ℕ) : List Task :=
  (m.docs doc).tasks.elim [] m.tasks

def view (m : Memory) (doc : ℕ) : Doc where
  tasks   := m.tasksOf doc
  freezes := (m.docs doc).freezes.elim [] m.freezes
  phases  := (m.docs doc).phases

end Memory

structure Admitted where
  doc     : ℕ
  tasks   : Option ℕ
  freezes : Option ℕ
  graph   : ℕ
  states  : List (Option String)
  found   : Option (Finset String)

structure State where
  memory : Memory
  kept   : Option Admitted

namespace State

def states (s : State) (doc : ℕ) : List (Option String) :=
  (s.memory.tasksOf doc).map (·.state)

def Hits (s : State) (doc graph : ℕ) (kept : Admitted) : Prop :=
  kept.states = s.states doc ∧ kept.doc = doc ∧ kept.tasks = (s.memory.docs doc).tasks ∧ s.memory.tasksOf doc ≠ [] ∧
    kept.freezes = (s.memory.docs doc).freezes ∧ kept.graph = graph

instance (s : State) (doc graph : ℕ) (kept : Admitted) : Decidable (s.Hits doc graph kept) :=
  inferInstanceAs (Decidable (_ ∧ _ ∧ _ ∧ _ ∧ _ ∧ _))

def fresh (s : State) (doc graph : ℕ) : Option (Finset String) :=
  admitSet (s.memory.view doc) (s.memory.graphs graph)

def keep (s : State) (doc graph : ℕ) : Admitted :=
  ⟨doc, (s.memory.docs doc).tasks, (s.memory.docs doc).freezes, graph, s.states doc, s.fresh doc graph⟩

def admitted (s : State) (doc graph : ℕ) : Option (Finset String) × State :=
  match s.kept.filter fun kept => s.Hits doc graph kept with
  | some kept => (kept.found, s)
  | none      => (s.fresh doc graph, { s with kept := some (s.keep doc graph) })

end State

-- `change` is any change in place of the objects.
inductive Event
  | change (memory : Memory)
  | call (doc graph : ℕ)

def step (s : State) : Event → State
  | .change memory  => { s with memory := memory }
  | .call doc graph => (s.admitted doc graph).2

end Focus
