import Agentihooks.Library.KeyTable
import Agentihooks.Library.Run
import Agentihooks.Library.Text

-- The asks that wait on the operator: rows that agents add by hand, and those that the server derives from the
-- questions, tasks, phases and follow-ups of a ledger.

namespace Priorities

structure Answer where
  deleted : Bool

structure Question where
  id         : String
  text       : String
  outOfScope : Bool
  answers    : List Answer

structure Comment where
  author  : String
  text    : String
  deleted : Bool

structure Task where
  id         : String
  title      : String
  state      : String
  awaiting   : String
  outOfScope : Bool
  comments   : List Comment

structure Review where
  state     : String
  escalated : Bool
  rounds    : ℕ
  notes     : List String

structure Phase where
  id         : String
  outOfScope : Bool
  review     : Option Review

structure Followup where
  id            : String
  text          : String
  outOfScope    : Bool
  done          : Bool
  needsOperator : Bool

structure Doc where
  questions : List Question
  tasks     : List Task
  phases    : List Phase
  followups : List Followup

structure Row where
  id      : String
  item    : String
  text    : String
  author  : String
  time    : ℕ
  derived : Bool
  deriving DecidableEq

structure Record where
  author : String
  kind   : String
  target : String
  id     : String
  text   : Option String
  reason : Option String
  deriving DecidableEq

-- The document with its rows, the texts that were dismissed, and what a sync has recorded and refused.
structure Ledger where
  doc       : Doc
  rows      : List Row
  dismissed : KeyTable String String
  records   : List Record
  refused   : List String
  dirty     : Bool

def path (list id : String) : String :=
  list ++ "/" ++ id

-- At most 16 words.
def short (text : String) : String :=
  let words := Text.words text
  " ".intercalate (words.take 16) ++ if words.length > 16 then "…" else ""

def reason (task : Task) : String :=
  let said := task.comments.filter fun c => c.author ≠ "operator" ∧ ¬ c.deleted ∧ Text.strip c.text ≠ ""
  (said.getLast?.map (·.text)).getD task.title

def taskLine (task : Task) : Option String :=
  if task.state = "blocked" then some ("Blocked: " ++ short (reason task))
  else if task.state = "pr" ∧ task.awaiting = "approval" then some ("Approve the merge: " ++ short task.title)
  else none

def questionLine (question : Question) : Option String :=
  if ¬ question.outOfScope ∧ question.answers.all (·.deleted) then some ("Answer: " ++ short question.text) else none

def phaseLine (phase : Phase) : Option String :=
  match phase.review with
  | none        => none
  | some review =>
    if review.escalated ∧ review.state = "sent_back" ∧ ¬ phase.outOfScope then
      some ("Decide the plan, sent back " ++ toString review.rounds ++ " times: " ++
        short ("; ".intercalate review.notes))
    else none

def followupLine (followup : Followup) : Option String :=
  if followup.needsOperator ∧ ¬ followup.done ∧ ¬ followup.outOfScope then some ("Decide: " ++ short followup.text)
  else none

-- An assignment to a key of a dictionary, which keeps its place there.
def put (found : List (String × String)) (key value : String) : List (String × String) :=
  if key ∈ found.map Prod.fst then found.map fun x => if x.1 = key then (key, value) else x else found ++ [(key, value)]

def putAll (found : List (String × String)) (lines : List (String × Option String)) : List (String × String) :=
  lines.foldl (fun found x => x.2.elim found (put found x.1)) found

-- The line of every item that waits on the operator.
def wanted (doc : Doc) : List (String × String) :=
  putAll [] ((doc.questions.map fun q => (path "questions" q.id, questionLine q)) ++
    (doc.tasks.map fun t => (path "tasks" t.id, if t.outOfScope then none else taskLine t)) ++
    (doc.phases.map fun p => (path "phases" p.id, phaseLine p)) ++
    doc.followups.map fun f => (path "followups" f.id, followupLine f))

def outOfScope (doc : Doc) : List String :=
  ((doc.phases.filter (·.outOfScope)).map fun p => path "phases" p.id) ++
    ((doc.questions.filter (·.outOfScope)).map fun q => path "questions" q.id) ++
    ((doc.followups.filter (·.outOfScope)).map fun f => path "followups" f.id) ++
    (doc.tasks.filter (·.outOfScope)).map fun t => path "tasks" t.id

def derivedRow (item text : String) (old : Option Row) (time : ℕ) : Row :=
  match old.filter (·.text = text) with
  | some old => old
  | none     => ⟨"auto-" ++ item.replace "/" "-", item, text, "ledger", time, true⟩

namespace Ledger

def manual (s : Ledger) : List Row :=
  s.rows.filter fun p => ¬ p.derived ∧ p.item ∉ outOfScope s.doc

-- The last derived row of an item.
def old (s : Ledger) (item : String) : Option Row :=
  s.rows.reverse.find? fun p => p.derived ∧ p.item = item

-- The dismissals of asks that are still as they were.
def kept (s : Ledger) : KeyTable String String :=
  s.dismissed.filter fun item text => (wanted s.doc).lookup item = some text

def derivedRows (s : Ledger) (time : ℕ) : List Row :=
  ((wanted s.doc).filter fun x => x.1 ∉ s.manual.map (·.item) ∧ s.kept.lookup x.1 = none).map fun x =>
    derivedRow x.1 x.2 (s.old x.1) time

def derive (s : Ledger) (time : ℕ) : Ledger :=
  let cleared := (s.rows.filter fun p => ¬ p.derived ∧ p.item ∈ outOfScope s.doc).map fun p =>
    ⟨"swarm", "priority cleared", p.item, p.id, none, some "its item is out of scope"⟩
  let rows := s.manual ++ s.derivedRows time
  { s with rows := rows, dismissed := s.kept, records := s.records ++ cleared, dirty := s.dirty || rows ≠ s.rows }

-- The ids of a list's items, each with whether it is out of scope.
def listed (doc : Doc) (list : String) : List (String × Bool) :=
  if list = "phases" then doc.phases.map fun p => (p.id, p.outOfScope)
  else if list = "questions" then doc.questions.map fun q => (q.id, q.outOfScope)
  else if list = "followups" then doc.followups.map fun f => (f.id, f.outOfScope)
  else if list = "tasks" then doc.tasks.map fun t => (t.id, t.outOfScope)
  else []

-- Puts an ask of an agent in the place of any row of its item.
def place (s : Ledger) (id item text author : String) (time : ℕ) : Ledger :=
  { s with
    rows    := s.rows.filter (·.item ≠ item) ++ [⟨id, item, text, author, time, false⟩]
    records := s.records ++ [⟨author, "priority added", item, id, some text, none⟩] }

def add (s : Ledger) (id list itemId text author : String) (time : ℕ) : Ledger :=
  match (listed s.doc list).lookup itemId with
  | none       => s
  | some true  => { s with refused := s.refused ++ ["Cannot add a priority to an out of scope item."] }
  | some false => s.place id (path list itemId) (Text.strip text) author time

-- The review of a phase's plan takes its rows away.
def decided (s : Ledger) (phaseId : String) : Ledger :=
  { s with rows := s.rows.filter (·.item ≠ path "phases" phaseId) }

-- The rows that a clear is about: an ask that no row shows yet counts as one.
def gone (s : Ledger) (target : String) (time : ℕ) : List Row :=
  let rows := if target = "all" then s.rows else s.rows.filter fun p => target = p.id ∨ target = p.item
  match (wanted s.doc).lookup target with
  | none      => rows
  | some text => if rows = [] ∧ s.dismissed.lookup target ≠ some text then [derivedRow target text none time] else rows

def dismiss (found : List (String × String)) (dismissed : KeyTable String String) (row : Row) :
    KeyTable String String :=
  (found.lookup row.item).elim dismissed (dismissed.insert row.item)

def clear (s : Ledger) (target author : String) (reason : Option String) (time : ℕ) : Ledger :=
  let gone := s.gone target time
  if gone = [] then
    if target = "all" then s else
    { s with refused := s.refused ++
      [if (wanted s.doc).lookup target ≠ none
        then "The priority on " ++ target ++ " is already cleared and returns only when its ask changes."
        else "No priority waits on " ++ target ++ " to clear."] }
  else
    { s with
      rows      := s.rows.filter (· ∉ gone)
      dismissed := gone.foldl (dismiss (wanted s.doc)) s.dismissed
      records   := s.records ++
        gone.map fun row => ⟨author, "priority cleared", row.item, row.id, some row.text, reason⟩ }

end Ledger

-- `update` is any change of the document but of its rows, and `escalate` what a blocker's last step does to them.
inductive Event
  | update (doc : Doc)
  | decided (phaseId : String)
  | escalate (id item text author : String) (time : ℕ)
  | add (id list itemId text author : String) (time : ℕ)
  | clear (target author : String) (reason : Option String) (time : ℕ)
  | derive (time : ℕ)

def step (s : Ledger) : Event → Ledger
  | .update doc                          => { s with doc := doc }
  | .decided phaseId                     => s.decided phaseId
  | .escalate id item text author time   => s.place id item text author time
  | .add id list itemId text author time => s.add id list itemId text author time
  | .clear target author reason time     => s.clear target author reason time
  | .derive time                         => s.derive time

end Priorities
