import Mathlib.Data.Finset.Dedup
import Mathlib.Data.Finset.Erase
import Mathlib.Data.List.Sort
import Mathlib.Data.String.Basic
import Mathlib.Tactic.TypeStar

-- The search chunks of a session: the events of a source in turns, the narrative of a turn in parts of bounded length,
-- and its tool calls with their results. A digest stands for what it is taken of.

namespace SearchIndex

inductive Kind
  | userText
  | assistantText
  | systemText
  | toolCall
  | toolResult
  | tokenUsage
  | turnComplete
  | meta_
  deriving DecidableEq

-- The text fields are as `_text` makes them; `others` is the rest of the record.
structure Record where
  kind       : Kind
  text       : String
  toolName   : String
  toolInput  : String
  toolResult : String
  toolUseId  : String
  isError    : Bool
  timestamp  : Option String
  taskId     : Option String
  others     : String
  deriving DecidableEq

structure Event where
  eventId        : String
  sequence       : ℕ
  byteStart      : ℕ
  byteEnd        : ℕ
  projectId      : Option String
  record         : Record
  normalizedHash : String
  deriving DecidableEq

structure Policy where
  version  : String
  maxChars : ℕ
  deriving DecidableEq

def Kind.narrative : Kind → Option String
  | .userText      => some "user"
  | .assistantText => some "assistant"
  | .systemText    => some "system"
  | .turnComplete  => some "summary"
  | _              => none

def Kind.IsTool : Kind → Prop
  | .toolCall | .toolResult => True
  | _                       => False

instance {kind : Kind} : Decidable kind.IsTool := by
  unfold Kind.IsTool
  split <;> infer_instance

-- `_line`
def Record.line (record : Record) : String :=
  match record.kind with
  | .toolCall   => "tool " ++ record.toolName ++ ": " ++ record.toolInput
  | .toolResult => (if record.isError then "result error" else "result") ++ ": " ++ record.toolResult
  | kind        => kind.narrative.getD "" ++ ": " ++ record.text

def Event.line (event : Event) : String :=
  event.record.line

section Turns

-- A user's text begins a turn.
def addToTurn (turns : List (List Event)) (event : Event) : List (List Event) :=
  match turns.getLast? with
  | none      => [[event]]
  | some turn =>
    if event.record.kind = .userText then turns ++ [[event]] else turns.dropLast ++ [turn ++ [event]]

-- `_turns`
def turns (events : List Event) : List (List Event) :=
  events.foldl addToTurn []

-- A part and the length of its lines.
def addToPart (limit : ℕ) (parts : List (List Event × ℕ)) (event : Event) : List (List Event × ℕ) :=
  let length := event.line.length
  match parts.getLast? with
  | some (part, size) =>
    if size + 1 + length ≤ limit then parts.dropLast ++ [(part ++ [event], size + 1 + length)]
    else parts ++ [([event], length)]
  | none              => [([event], length)]

-- `_parts`
def parts (limit : ℕ) (events : List Event) : List (List Event) :=
  (events.foldl (addToPart limit) []).map Prod.fst

def Event.toolKey (event : Event) : String :=
  if event.record.toolUseId ≠ "" then event.record.toolUseId else "#" ++ toString event.sequence

def addToPair (pairs : List (String × List Event)) (event : Event) : List (String × List Event) :=
  if event.toolKey ∈ pairs.map Prod.fst then
    pairs.map fun pair => if pair.1 = event.toolKey then (pair.1, pair.2 ++ [event]) else pair
  else pairs ++ [(event.toolKey, [event])]

-- `_tools`
def tools (events : List Event) : List (List Event) :=
  ((events.filter fun event => event.record.kind.IsTool).foldl addToPair []).map Prod.snd

end Turns

section Chunks

structure Tool where
  toolUseId     : String
  toolName      : Option String
  isError       : Option Bool
  callEventId   : Option String
  resultEventId : Option String
  deriving DecidableEq

-- `_tool`
def tool (events : List Event) : Tool :=
  let call := (events.filter fun event => event.record.kind = .toolCall).getLast?
  let result := (events.filter fun event => event.record.kind = .toolResult).getLast?
  { toolUseId     := (events.head?.map fun event => event.record.toolUseId).getD ""
    toolName      := call.map fun event => event.record.toolName
    isError       := result.map fun event => event.record.isError
    callEventId   := call.map Event.eventId
    resultEventId := result.map Event.eventId }

inductive ChunkKind
  | turn
  | tool
  deriving DecidableEq

structure ChunkId where
  version    : String
  session    : String
  generation : String
  kind       : ChunkKind
  sequences  : List ℕ
  deriving DecidableEq

structure TurnId where
  version    : String
  session    : String
  generation : String
  first      : ℕ
  deriving DecidableEq

structure Evidence where
  eventId   : String
  sequence  : ℕ
  byteStart : ℕ
  byteEnd   : ℕ
  deriving DecidableEq

def Event.evidence (event : Event) : Evidence :=
  ⟨event.eventId, event.sequence, event.byteStart, event.byteEnd⟩

structure Chunk where
  id           : ChunkId
  parent       : Option String
  turn         : TurnId
  projectIds   : Finset String
  preview      : String
  omittedChars : ℕ
  tool         : Option Tool
  evidence     : List Evidence
  deriving DecidableEq

-- The digest of the preview.
def Chunk.contentHash (chunk : Chunk) : String :=
  chunk.preview

def Chunk.truncated (chunk : Chunk) : Bool :=
  0 < chunk.omittedChars

-- What a chunk is made from besides its events.
structure ChunkUnit where
  policy     : Policy
  session    : String
  parent     : Option String
  generation : String
  first      : ℕ

def text (events : List Event) : String :=
  "\n".intercalate (events.map Event.line)

-- `text[: max_chars]`
def clip (limit : ℕ) (text : String) : String :=
  String.ofList (text.toList.take limit)

-- `_chunk`
def chunk (unit : ChunkUnit) (kind : ChunkKind) (events : List Event) (tool : Option Tool) : Chunk :=
  let preview := clip unit.policy.maxChars (text events)
  { id           := ⟨unit.policy.version, unit.session, unit.generation, kind, events.map Event.sequence⟩
    parent       := unit.parent
    turn         := ⟨unit.policy.version, unit.session, unit.generation, unit.first⟩
    projectIds   := (events.filterMap Event.projectId).toFinset.erase ""
    preview      := preview
    omittedChars := (text events).length - preview.length
    tool         := tool
    evidence     := events.map Event.evidence }

def turnChunks (unit : ChunkUnit) (turn : List Event) : List Chunk :=
  (parts unit.policy.maxChars (turn.filter fun event => event.record.kind.narrative.isSome)).map (chunk unit .turn · none) ++
    (tools turn).map fun pair => chunk unit .tool pair (some (tool pair))

def Chunk.firstSequence (chunk : Chunk) : ℕ :=
  (chunk.evidence.head?.map Evidence.sequence).getD 0

-- `chunk_events`
def chunkEvents (policy : Policy) (session : String) (parent : Option String) (generation : String) (events : List Event) :
    List Chunk :=
  let sorted := events.insertionSort fun a b => a.sequence ≤ b.sequence
  let chunks := (turns sorted).flatMap fun turn =>
    turnChunks ⟨policy, session, parent, generation, (turn.head?.map Event.sequence).getD 0⟩ turn
  chunks.insertionSort fun a b => a.firstSequence ≤ b.firstSequence

def Policy.Valid (policy : Policy) : Prop :=
  policy.version ≠ "" ∧ 1 ≤ policy.maxChars

instance {policy : Policy} : Decidable policy.Valid :=
  inferInstanceAs (Decidable (_ ∧ _))

end Chunks

end SearchIndex
