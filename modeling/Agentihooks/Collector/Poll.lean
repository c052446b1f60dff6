import Mathlib.Data.List.Infix
import Mathlib.Logic.Function.Basic
import Agentihooks.Importer.Sources
import Agentihooks.Library.Run

-- The collection of one transcript that grows at its end: any number of collectors read what is new of it from one
-- stored cursor, hand it on and commit the cursor, each in steps of its own and each stopping anywhere.

namespace Collector

open Importer (Bytes Entry Record Loaded text textOf fieldsOf falsy orElse)

inductive Format
  | claude
  | codex
  | copilot
  deriving DecidableEq

section Decode

def codexTypes : List String :=
  ["session_meta", "response_item", "event_msg", "turn_context", "world_state"]

def copilotPrefixes : List String :=
  ["session.", "user.", "assistant.", "tool.", "system.", "hook.", "subagent.", "mcp.", "permission."]

def isCopilotType (value : Option JsonValue) : Bool :=
  (value.bind textOf).any fun type => copilotPrefixes.any fun start => start.toList.isPrefixOf type.toList

-- `_copilot_result_text`. The texts of blocks have to be texts to be joined.
def copilotResultText (result : Option JsonValue) : Option JsonValue :=
  match result.bind fieldsOf with
  | none        => some (result.getD (.scalar .null))
  | some fields =>
    match ["content", "detailedContent"].findSome? fun key => ((fields.lookup key).bind textOf).filter (· ≠ "") with
    | some value => some (text value)
    | none       =>
      match fields.lookup "contents" with
      | some (.array blocks) =>
        match blocks.filterMap fun block => ((fieldsOf block).bind (·.lookup "text")).filter (! falsy ·) with
        | []    => some (.object fields)
        | texts => (texts.mapM textOf).map fun joined => text ("\n".intercalate joined)
      | _                    => some (.object fields)

-- `_copilot_message`
def copilotMessage (type : String) (data : Entry) (assistantSeen : Bool) : List Record × Bool :=
  let record kind := ((data.lookup "content").filter (! falsy ·)).toList.map fun content => [("kind", text kind), ("text", content)]
  match type with
  | "user.message" =>
    if data.lookup "source" = some (text "system") then (record "system_text", assistantSeen)
    else (record "user_text", false)
  | "assistant.message" => (record "assistant_text", assistantSeen || (data.lookup "content").any (! falsy ·))
  | _                   => (record "system_text", assistantSeen)

-- `_copilot_tool`
def copilotTool (type : String) (data : Entry) : Option Record :=
  if type = "tool.execution_start" then some [
    ("kind", text "tool_call"),
    ("tool_name", (data.lookup "toolName").getD (text "")),
    ("tool_input", (data.lookup "arguments").getD (.scalar .null)),
    ("tool_use_id", (data.lookup "toolCallId").getD (text ""))]
  else
    let failed := (data.lookup "success").any falsy
    let result := match failed, (data.lookup "error").bind fieldsOf with
      | true, some error => some ((error.lookup "message").getD (text ""))
      | _,    _          => copilotResultText (data.lookup "result")
    result.map fun result => [
      ("kind", text "tool_result"),
      ("tool_result", result),
      ("tool_use_id", (data.lookup "toolCallId").getD (text "")),
      ("is_error", .scalar (.bool failed))]

def decodeCopilot (entry : Entry) (assistantSeen : Bool) : Option (List Record × Bool) :=
  let type := ((entry.lookup "type").bind textOf).getD ""
  if ¬ isCopilotType (entry.lookup "type") then some ([], assistantSeen)
  else if (entry.lookup "ephemeral").any (! falsy ·) ∧ type ≠ "assistant.usage" then some ([], assistantSeen)
  else match (entry.lookup "data").bind fieldsOf with
    | none      => some ([], assistantSeen)
    | some data => match type with
      | "user.message" | "assistant.message" | "system.message" => some (copilotMessage type data assistantSeen)
      | "tool.execution_start" | "tool.execution_complete" =>
        (copilotTool type data).map fun record => ([record], assistantSeen)
      | "assistant.usage"       => some ([[("kind", text "token_usage")]], assistantSeen)
      | "session.task_complete" => some (if assistantSeen then [] else [[
        ("kind", text "turn_complete"),
        ("text", orElse (data.lookup "summary") (some (text "")))]], false)
      | "session.start"         => some ([[("kind", text "meta")]], assistantSeen)
      | _                       => some ([], assistantSeen)

-- `DECODERS`
def decode : Format → Entry → Bool → Option (List Record × Bool)
  | .claude  => Importer.decode .claude
  | .codex   => Importer.decode .codex
  | .copilot => decodeCopilot

-- The records of the entries and the state of the turn after them; nothing where a decoder raises.
def normalizeEntries (fmt : Format) : List JsonValue → Bool → Option (List Record × Bool)
  | [],           assistantSeen => some ([], assistantSeen)
  | .object e :: rest, assistantSeen => do
    let (records, assistantSeen) ← decode fmt e assistantSeen
    let (more, assistantSeen)    ← normalizeEntries fmt rest assistantSeen
    some (records ++ more, assistantSeen)
  | _ :: rest, assistantSeen => normalizeEntries fmt rest assistantSeen

end Decode

section Lines

-- `bytes.splitlines`, after what has been read of a line.
def splitLines : Bytes → Bytes → List Bytes
  | line, []              => if line.isEmpty then [] else [line]
  | line, 13 :: 10 :: rest => line :: splitLines [] rest
  | line, 13 :: rest       => line :: splitLines [] rest
  | line, 10 :: rest       => line :: splitLines [] rest
  | line, c :: rest        => splitLines (line ++ [c]) rest

-- `data[: data.rfind(b"\n") + 1]`
def completeOf (data : Bytes) : Bytes :=
  (data.reverse.dropWhile (· ≠ 10)).reverse

end Lines

section Detect

-- A line of the file as text, stripped.
inductive Peeked
  | blank
  | bracket
  | undecodable
  | value (value : JsonValue)
  | raises

-- `detect_transcript_format`, after some lines that are values; nothing where it raises.
def detect : ℕ → List Peeked → Option Format
  | _, []                          => some .claude
  | n, .blank :: rest              => detect n rest
  | _, .bracket :: _               => some .claude
  | n, .undecodable :: rest        => detect n rest
  | _, .raises :: _                => none
  | n, .value (.object e) :: rest  =>
    if ((e.lookup "type").bind textOf).any (· ∈ codexTypes) then some .codex
    else if isCopilotType (e.lookup "type") then some .copilot
    else if 5 ≤ n + 1 then some .claude
    else detect (n + 1) rest
  | _, .value _ :: _               => none

end Detect

structure Cursor where
  device   : ℕ
  inode    : ℕ
  offset   : ℕ
  anchor   : String
  fmt      : Option Format
  turn     : Option Bool
  revision : ℕ
  replays  : ℕ
  deriving DecidableEq

-- The cursor of a source that none is stored for.
def Cursor.start : Cursor :=
  ⟨0, 0, 0, "", none, none, 0, 0⟩

structure Batch where
  records  : List Record
  cursor   : Cursor
  start    : ℕ
  stop     : ℕ
  pending  : ℕ
  replayed : Bool

-- What is around the transcript: the identity of its file, the decoding of lines and the digest of its anchors.
structure Setting where
  device : ℕ
  inode  : ℕ
  loads  : Bytes → Loaded
  peeks  : Bytes → List Peeked
  digest : Bytes → String

-- What `read_batch` has read of the open file.
structure Reading where
  same   : Bool
  start  : ℕ
  data   : Bytes
  anchor : String

namespace Setting

variable (setting : Setting)

-- `_anchor`
def anchorOf (file : Bytes) (offset : ℕ) : String :=
  setting.digest ((file.drop (offset - 64)).take (offset - (offset - 64)))

-- `_entries` of the lines; nothing where an error is not caught.
def entriesOf : List Bytes → Option (List JsonValue)
  | []           => some []
  | line :: rest => match setting.loads line with
    | .value value => (entriesOf rest).map (value :: ·)
    | .undecodable => entriesOf rest
    | .raises      => none

def entries (complete : Bytes) : Option (List JsonValue) :=
  setting.entriesOf (splitLines [] complete)

def read (file : Bytes) (cursor : Cursor) : Reading :=
  let same := (setting.device, setting.inode) = (cursor.device, cursor.inode) ∧ cursor.offset ≤ file.length ∧
    setting.anchorOf file cursor.offset = cursor.anchor
  let start := if same then cursor.offset else 0
  let data  := file.drop start
  ⟨same, start, data, setting.anchorOf file (start + (completeOf data).length)⟩

-- The format of what is read, for which the file is opened once more where it is not known.
def format (file complete : Bytes) (known : Option Format) : Option (Option Format) :=
  if known = none ∧ complete ≠ [] then (detect 0 (setting.peeks file)).map some else some known

def records (fmt : Option Format) (complete : Bytes) (turn : Bool) : Option (List Record × Bool) :=
  match fmt with
  | none     => some ([], turn)
  | some fmt =>
    if complete = [] then some ([], turn)
    else (setting.entries complete).bind fun entries => normalizeEntries fmt entries turn

-- The rest of `read_batch`; nothing where it raises.
def batch (file : Bytes) (cursor : Cursor) (r : Reading) : Option Batch :=
  let complete := completeOf r.data
  let replayed := ! r.same && 0 < cursor.revision
  (setting.format file complete (if r.same then cursor.fmt else none)).bind fun fmt =>
    (setting.records fmt complete ((if r.same then cursor.turn else none).getD false)).map fun x =>
      { records  := x.1
        cursor   := { cursor with
          device  := setting.device
          inode   := setting.inode
          offset  := r.start + complete.length
          anchor  := r.anchor
          fmt     := fmt
          turn    := some x.2
          replays := cursor.replays + replayed.toNat
        }
        start    := r.start
        stop     := r.start + r.data.length
        pending  := r.data.length - complete.length
        replayed := replayed }

end Setting

-- Where a poll is.
inductive Position
  | loaded (cursor : Cursor)
  | reading (cursor : Cursor) (reading : Reading)
  | ready (cursor : Cursor) (batch : Batch)
  | committing (batch : Batch)

structure World where
  file      : Bytes
  stored    : Option Cursor
  polls     : ℕ → Option Position
  accepted  : List Batch
  committed : List Batch

def World.start (file : Bytes) : World where
  file      := file
  stored    := none
  polls _   := none
  accepted  := []
  committed := []

namespace World

-- `CursorStore.load`
def load (w : World) : Cursor :=
  w.stored.getD .start

def move (w : World) (poll : ℕ) (position : Option Position) : World :=
  { w with polls := Function.update w.polls poll position }

-- The next step of a poll, in which accepting may fail.
def proceed (setting : Setting) (w : World) (poll : ℕ) (ok : Bool) : Position → World
  | .loaded cursor          => w.move poll (some (.reading cursor (setting.read w.file cursor)))
  | .reading cursor reading => w.move poll ((setting.batch w.file cursor reading).map (.ready cursor))
  | .ready cursor batch     =>
    if batch.cursor = cursor then w.move poll none
    else if batch.records = [] then w.move poll (some (.committing batch))
    else if ok then { w.move poll (some (.committing batch)) with accepted := w.accepted ++ [batch] }
    else w.move poll none
  -- `CursorStore.commit`
  | .committing batch       =>
    if w.load.revision = batch.cursor.revision then
      { w.move poll none with
        stored    := some { batch.cursor with revision := batch.cursor.revision + 1 }
        committed := w.committed ++ [batch]
      }
    else w.move poll none

end World

inductive Event
  | append (bytes : Bytes)
  | poll (poll : ℕ)
  | proceed (poll : ℕ) (ok : Bool)
  | crash (poll : ℕ)

def step (setting : Setting) (w : World) : Event → World
  | .append bytes    => { w with file := w.file ++ bytes }
  | .poll poll       => w.move poll (some (.loaded w.load))
  | .proceed poll ok =>
    match w.polls poll with
    | none          => w
    | some position => w.proceed setting poll ok position
  | .crash poll      => w.move poll none

end Collector
