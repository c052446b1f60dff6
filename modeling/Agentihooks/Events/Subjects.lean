import Mathlib.Data.List.Basic
import Agentihooks.Library.Text

-- Subjects as dotted text: which ones a pattern matches, and how those of a swarm are built.

namespace Subjects

def tokens (text : String) : List String :=
  (text.toList.splitOn '.').map String.ofList

-- The loop of `subject_matches`, on what is left of the pattern and of the subject.
def matchTokens : List String → List String → Bool
  | [],            have' => have'.isEmpty
  | token :: want, have' =>
    if token = ">" then !have'.isEmpty
    else
      match have' with
      | []           => false
      | first :: rest => (token = "*" ∨ token = first) && matchTokens want rest

def subjectMatches (pattern subject : String) : Bool :=
  matchTokens (tokens pattern) (tokens subject)

inductive Failure
  | token (value : String)
  | noTokens
  | foreign (subject swarm : String)
  deriving DecidableEq

def dot (a b : String) : String :=
  a ++ "." ++ b

-- `[^.*>\s]+`
def isToken (value : String) : Bool :=
  value ≠ "" ∧ value.toList.all fun c => c ≠ '.' ∧ c ≠ '*' ∧ c ≠ '>' ∧ !Text.space c

-- The join of the tokens after a text.
def joined (text : String) : List String → Except Failure String
  | []              => .ok text
  | token :: tokens => if isToken token then joined (dot text token) tokens else .error (.token token)

def subject (swarm : String) (tokens : List String) : Except Failure String :=
  if tokens = [] then .error .noTokens else joined "swarm" (swarm :: tokens)

def slotRequest (swarm hive : String) : Except Failure String :=
  joined "slots" [swarm, hive]

def removePrefix (text start : String) : String :=
  match text.toList.dropPrefix? start.toList with
  | some rest => .ofList rest
  | none      => text

def startsWith (text start : String) : Bool :=
  start.toList.isPrefixOf text.toList

def inSwarm (swarm subject : String) : Bool :=
  startsWith subject (dot (dot "swarm" swarm) "") || startsWith subject (dot (dot "slots" swarm) "")

def lanes : List String :=
  ["eng", "ci", "plan"]

def queueLane (swarm name : String) : Except Failure String :=
  let lane := removePrefix name (dot (dot (dot "swarm" swarm) "ready") "")
  if lane ∈ lanes then .ok lane else .error (.foreign name swarm)

-- What is left of a logical subject within a swarm.
def logicalIn (swarm kind logical : String) : Except Failure String :=
  if kind = "dead" then
    if logical = dot "dead" swarm then .ok "event" else
    let logical := removePrefix logical (dot (dot "dead" swarm) "")
    .ok (if logical = "dead.>" then ">" else logical)
  else if logical = "swarm.>" ∨ logical = "swarm.*.>" then .ok ">"
  else if startsWith logical "swarm.*." then .ok (removePrefix logical "swarm.*.")
  else if startsWith logical (dot (dot "swarm" swarm) "") then .ok (removePrefix logical (dot (dot "swarm" swarm) ""))
  else if startsWith logical "swarm." then .error (.foreign logical swarm)
  else .ok logical

def scopedSubject (swarm kind logical : String) : Except Failure String :=
  match subject swarm [kind] with
  | .error e => .error e
  | .ok base => (logicalIn swarm kind logical).map (dot base)

-- The subject that a queue is offered work on, and the filter of its stream.
def queueNames (swarm name : String) : Except Failure (String × String) :=
  match queueLane swarm name with
  | .error e => .error e
  | .ok lane => (subject swarm ["queue", lane]).map fun base => (dot base "work", dot base ">")

-- The subject of a state key; the filter of its bucket's stream.
def stateSubject (swarm bucket key : String) : Except Failure String :=
  subject swarm ("state" :: bucket :: tokens key)

def bucketFilter (swarm bucket : String) : Except Failure String :=
  (subject swarm ["state", bucket]).map (dot · ">")

-- The subjects of a swarm's event and dead letter streams.
def familyFilter (swarm family : String) : Except Failure String :=
  (subject swarm [family]).map (dot · ">")

end Subjects
