import Mathlib.Data.List.MinMax
import Mathlib.Data.String.Basic
import Agentihooks.Library.JsonValue

-- A transcript is read line by line into events and losses.

namespace Importer

inductive Provider
  | claude
  | codex
  deriving DecidableEq

abbrev Bytes := List UInt8

section Folders

-- The parts of a path, where empty ones and dots count for nothing.
def parts (folder : String) : List (List Char) :=
  (folder.toList.splitOn '/').filter fun part => part ≠ [] ∧ part ≠ ['.']

-- Two slashes at the start are a root of their own.
def root (folder : String) : ℕ :=
  match (folder.toList.takeWhile (· = '/')).length with
  | 0 => 0
  | 2 => 2
  | _ => 1

-- `_absolute`
def absolute (folder : String) : Bool :=
  root folder ≠ 0 ∧ ¬ (parts folder).contains ['.', '.']

-- `PurePosixPath(folder).is_relative_to(other)`
def isRelativeTo (folder other : String) : Bool :=
  root folder = root other ∧ (parts other).isPrefixOf (parts folder)

-- The projects of the folders that are named.
structure Aliases where
  items    : List (String × String)
  nodup    : (items.map Prod.fst).Nodup
  absolute : ∀ item ∈ items, absolute item.1 = true

def resolveProject (cwd : Option String) (aliases : Aliases) : Option String :=
  match cwd with
  | none     => none
  | some cwd =>
    if absolute cwd then ((aliases.items.filter fun item => isRelativeTo cwd item.1).argmax Prod.fst).map Prod.snd
    else none

end Folders

section Decode

-- The fields of an object.
abbrev Entry := List (String × JsonValue)

def text (value : String) : JsonValue :=
  .scalar (.str value)

def fieldsOf : JsonValue → Option Entry
  | .object fields => some fields
  | _              => none

-- `_text`
def textOf : JsonValue → Option String
  | .scalar (.str s) => some s
  | _                => none

def falsy : JsonValue → Bool
  | .scalar .null        => true
  | .scalar (.bool b)    => !b
  | .scalar (.int n)     => n = 0
  | .scalar (.float _ m) => m = 0
  | .scalar (.str s)     => s = ""
  | .array items         => items.isEmpty
  | .object fields       => fields.isEmpty

-- `a or b`, where a missing value is null.
def orElse (a b : Option JsonValue) : JsonValue :=
  if (a.getD (.scalar .null)) |> falsy then b.getD (.scalar .null) else a.getD (.scalar .null)

-- A record without its entry.
abbrev Record := List (String × JsonValue)

def isInboxDelivery (entry : Entry) : Bool :=
  ((entry.lookup "origin").bind fieldsOf).any fun origin =>
    origin.lookup "kind" = some (text "channel") ∧ origin.lookup "server" = some (text "inbox")

def claudeBlock (kind : String) (block : Entry) : Option Record :=
  match (block.lookup "type").bind textOf with
  | some "text"        => some [("kind", text kind), ("text", (block.lookup "text").getD (text ""))]
  | some "tool_use"    => some [
    ("kind", text "tool_call"),
    ("tool_name", (block.lookup "name").getD (text "")),
    ("tool_input", (block.lookup "input").getD (.scalar .null)),
    ("tool_use_id", (block.lookup "id").getD (text ""))]
  | some "tool_result" => some [
    ("kind", text "tool_result"),
    ("tool_result", (block.lookup "content").getD (.scalar .null)),
    ("tool_use_id", (block.lookup "tool_use_id").getD (text "")),
    ("is_error", .scalar (.bool ((block.lookup "is_error").any (! falsy ·))))]
  | _                  => none

def decodeClaude (entry : Entry) : List Record :=
  match (entry.lookup "type").bind textOf with
  | some "user" | some "assistant" =>
    let assistant := entry.lookup "type" = some (text "assistant")
    let kind :=
      if assistant then "assistant_text"
      else if (entry.lookup "isMeta").any (! falsy ·) ∧ ¬ isInboxDelivery entry then "system_text"
      else "user_text"
    let content := match entry.lookup "message" with
      | some (.scalar (.str s)) => some (text s)
      | some (.object fields)   => fields.lookup "content"
      | _                       => none
    match content with
    | some (.scalar (.str s)) => [[("kind", text kind), ("text", text s)]]
    | some (.array blocks)    => blocks.filterMap fun block => (fieldsOf block).bind (claudeBlock kind)
    | _                       => []
  | _ => []

-- The texts of a message's content; the content has to be iterable.
def codexTexts : Option JsonValue → Option (List JsonValue)
  | none                  => some []
  | some (.array blocks)  => some (blocks.filterMap fun block => (fieldsOf block).bind fun block =>
    match (block.lookup "type").bind textOf with
    | some "input_text" | some "output_text" | some "text" => some ((block.lookup "text").getD (text ""))
    | _                                                    => none)
  | some (.object _)         => some []
  | some (.scalar (.str _))  => some []
  | some (.scalar _)         => none

-- The kind of a message; a role that is no key of a dictionary cannot be looked up.
def codexKind : Option JsonValue → Option String
  | some (.array _) | some (.object _) => none
  | some (.scalar (.str "assistant"))  => some "assistant_text"
  | some (.scalar (.str "user"))       => some "user_text"
  | _                                  => some "system_text"

-- `_codex_response_item`
def codexResponseItem (payload : Entry) (assistantSeen : Bool) : Option (List Record × Bool) :=
  match (payload.lookup "type").bind textOf with
  | some "message" => do
    let kind ← codexKind (payload.lookup "role")
    let assistantSeen := if kind = "user_text" then false else assistantSeen
    match ← codexTexts (payload.lookup "content") with
    | []    => some ([], assistantSeen)
    | texts =>
      let joined ← texts.mapM textOf
      some ([[("kind", text kind), ("text", text ("\n".intercalate joined))]],
        if kind = "assistant_text" then true else assistantSeen)
  | some "function_call" | some "local_shell_call" | some "custom_tool_call" => some ([[
    ("kind", text "tool_call"),
    ("tool_name", (payload.lookup "name").getD ((payload.lookup "type").getD (.scalar .null))),
    ("tool_input", orElse (payload.lookup "arguments") (payload.lookup "action")),
    ("tool_use_id", (payload.lookup "call_id").getD (text ""))]], assistantSeen)
  | some "function_call_output" | some "custom_tool_call_output" => some ([[
    ("kind", text "tool_result"),
    ("tool_result", (payload.lookup "output").getD (.scalar .null)),
    ("tool_use_id", (payload.lookup "call_id").getD (text "")),
    ("is_error", .scalar (.bool false))]], assistantSeen)
  | _ => some ([], assistantSeen)

def decodeCodex (entry : Entry) (assistantSeen : Bool) : Option (List Record × Bool) :=
  match ((entry.lookup "payload").getD (.object [])) |> fieldsOf with
  | none         => some ([], assistantSeen)
  | some payload => match (entry.lookup "type").bind textOf with
    | some "response_item" => codexResponseItem payload assistantSeen
    | some "event_msg"     => match (payload.lookup "type").bind textOf with
      | some "token_count"   => some ([[("kind", text "token_usage")]], assistantSeen)
      | some "task_complete" => some (if assistantSeen then [] else [[
        ("kind", text "turn_complete"),
        ("text", orElse (payload.lookup "last_agent_message") (some (text "")))]], false)
      | _                    => some ([], assistantSeen)
    | some "session_meta"  => some ([[("kind", text "meta")]], assistantSeen)
    | _                    => some ([], assistantSeen)

-- `normalize_entries` of one entry, and whether the turn has a text of the assistant after it; nothing where the decoder
-- raises.
def decode (provider : Provider) (entry : Entry) (assistantSeen : Bool) : Option (List Record × Bool) :=
  match provider with
  | .claude => some (decodeClaude entry, assistantSeen)
  | .codex  => decodeCodex entry assistantSeen

end Decode

section Read

-- What `json.loads(piece.decode())` makes of a line: a value, one of the two errors that are caught, or another one.
inductive Loaded
  | value (value : JsonValue)
  | undecodable
  | raises

structure Metadata where
  nativeSessionId : Option String
  providerVersion : Option String
  firstEventTime  : Option String
  lastEventTime   : Option String
  workingFolders  : List String
  deriving DecidableEq

-- `_observed`: the session, the version and the working folder of an entry.
def observed (provider : Provider) (entry : Entry) : Option JsonValue × Option JsonValue × Option JsonValue :=
  match provider with
  | .claude => (entry.lookup "sessionId", entry.lookup "version", entry.lookup "cwd")
  | .codex  =>
    let payload := ((entry.lookup "payload").bind fieldsOf).getD []
    let kind := (entry.lookup "type").bind textOf
    let cwd := if kind = some "session_meta" ∨ kind = some "turn_context" then payload.lookup "cwd" else none
    if kind = some "session_meta" then (payload.lookup "id", payload.lookup "cli_version", cwd) else (none, none, cwd)

-- `value or other`
def firstText (value other : Option String) : Option String :=
  if value.getD "" = "" then other else value

def observe (provider : Provider) (entry : Entry) (metadata : Metadata) : Option String × Metadata :=
  let (session, version, cwd) := observed provider entry
  let cwd  := cwd.bind textOf
  let time := (entry.lookup "timestamp").bind textOf
  let folders := metadata.workingFolders
  (cwd,
    { nativeSessionId := firstText metadata.nativeSessionId (session.bind textOf)
      providerVersion := firstText metadata.providerVersion (version.bind textOf)
      workingFolders  := if (cwd.getD "") = "" ∨ cwd.getD "" ∈ folders then folders else folders ++ [cwd.getD ""]
      firstEventTime  := if time.getD "" = "" then metadata.firstEventTime else firstText metadata.firstEventTime time
      lastEventTime   := if time.getD "" = "" then metadata.lastEventTime else time })

structure Event where
  byteStart : ℕ
  byteEnd   : ℕ
  projectId : Option String
  sequence  : ℕ
  record    : Record

inductive Reason
  | unparseable
  | truncated
  deriving DecidableEq

structure Loss where
  byteStart : ℕ
  byteEnd   : ℕ
  reason    : Reason
  deriving DecidableEq

structure SourceRead where
  events   : List Event
  losses   : List Loss
  metadata : Metadata

-- What the loop of `read_source` carries.
structure Reading where
  read          : SourceRead
  assistantSeen : Bool
  cwd           : Option String
  offset        : ℕ

def Reading.start : Reading :=
  ⟨⟨[], [], ⟨none, none, none, none, []⟩⟩, false, none, 0⟩

-- `not piece.strip()`
def blank (piece : Bytes) : Bool :=
  piece.all fun byte => (9 ≤ byte ∧ byte ≤ 13) ∨ byte = 32

variable (loads : Bytes → Loaded) (provider : Provider) (aliases : Aliases)

def sourceTime (entry : Entry) : JsonValue :=
  (((entry.lookup "timestamp").bind textOf).map text).getD (.scalar .null)

-- `_events`
def eventsOf (entry : Entry) (records : List Record) (first start stop : ℕ) (projectId : Option String) : List Event :=
  records.zipIdx.map fun x => ⟨start, stop, projectId, first + x.2, x.1 ++ [("source_time", sourceTime entry)]⟩

def Reading.lose (r : Reading) (start stop : ℕ) (reason : Reason) : Reading :=
  { r with read := { r.read with losses := r.read.losses ++ [⟨start, stop, reason⟩] } }

-- One line; the last one is not ended by a newline.
def readPiece (last : Bool) (r : Reading) (piece : Bytes) : Option Reading :=
  let start := r.offset
  let stop  := start + piece.length
  let r := { r with offset := stop + 1 }
  if blank piece then some r
  else match loads piece with
    | .raises                => none
    | .undecodable           => some (r.lose start stop (if last then .truncated else .unparseable))
    | .value (.object entry) =>
      let (folder, metadata) := observe provider entry r.read.metadata
      let cwd := firstText folder r.cwd
      (decode provider entry r.assistantSeen).map fun (records, assistantSeen) =>
        let events := eventsOf entry records (r.read.events.length + 1) start stop (resolveProject cwd aliases)
        { r with
          read          := { r.read with events := r.read.events ++ events, metadata := metadata }
          assistantSeen := assistantSeen
          cwd           := cwd }
    | .value _               => some (r.lose start stop .unparseable)

def readFrom : Reading → List Bytes → Option Reading
  | r, []            => some r
  | r, piece :: rest => (readPiece loads provider aliases rest.isEmpty r piece).bind (readFrom · rest)

-- `read_source`
def readSource (data : Bytes) : Option SourceRead :=
  (readFrom loads provider aliases .start (data.splitOn 10)).map Reading.read

end Read

end Importer
