import Agentihooks.Library.Run
import Agentihooks.Library.Text
import Agentihooks.Objects.Rows

-- The breaker that stops blind retries of an operation. Its state is in Redis and in memory.

namespace RetryBreaker

-- What Unicode says of a character, and the text in lower case.
structure Alphabet where
  lower : String → String
  word  : Char → Bool
  digit : Char → Bool

section Fingerprint

variable (alphabet : Alphabet)

def hex (c : Char) : Bool :=
  ('0' ≤ c ∧ c ≤ '9') ∨ ('a' ≤ c ∧ c ≤ 'f') ∨ ('A' ≤ c ∧ c ≤ 'F')

-- The text begins with the shape, in which `d` stands for a digit.
def begins : List Char → List Char → Bool
  | [], _                => true
  | _, []                => false
  | d :: shape, c :: text => (if d = 'd' then alphabet.digit c else d = c) && begins shape text

-- How many characters `_STRIP_RE` takes at this place, after the character before it.
def taken (before : Option Char) (text : List Char) : ℕ :=
  let boundary := ¬ before.any alphabet.word
  let address  := ((text.drop 2).takeWhile hex).length
  let path     := ((text.drop 1).takeWhile fun c => alphabet.word c || c ∈ ['.', '/', '-']).length
  let number   := (text.takeWhile alphabet.digit).length
  if begins alphabet "0x".toList text ∧ 0 < address then 2 + address
  else if boundary ∧ begins alphabet "dddd-dd-dd".toList text then 10
  else if boundary ∧ begins alphabet "dd:dd:dd".toList text then 8
  else if begins alphabet "/".toList text ∧ 0 < path then 1 + path
  else if boundary ∧ 0 < number ∧ ¬ (text.drop number).head?.any alphabet.word then number
  else 0

-- `_STRIP_RE.sub("", ..)`, where `skip` characters are still to be taken.
def stripFrom (before : Option Char) : ℕ → List Char → List Char
  | _, []             => []
  | skip + 1, c :: cs => stripFrom (some c) skip cs
  | 0, c :: cs        => match taken alphabet before (c :: cs) with
    | 0     => c :: stripFrom (some c) 0 cs
    | n + 1 => stripFrom (some c) n cs

-- `text[:n]`
def upTo (n : ℕ) (text : String) : String :=
  .ofList (text.toList.take n)

def computeErrorKey (errorText : String) : String :=
  let normalized := Text.strip (.ofList (stripFrom alphabet none 0 (alphabet.lower errorText).toList))
  upTo 80 (" ".intercalate (Text.words normalized))

end Fingerprint

structure Record where
  count         : ℕ
  lastErrorKey  : String
  lastErrorText : String
  lastInput     : String
  blocked       : Bool
  deriving DecidableEq

-- `_default_state`
def Record.default : Record :=
  ⟨0, "", "", "", false⟩

-- The session and the operation.
abbrev Key := String × String

structure State where
  redis  : Dict Key Record
  memory : Dict Key Record
  deriving DecidableEq

def init : State :=
  ⟨∅, ∅⟩

-- Whether Redis answers the read of an event, and whether the event's write to Redis takes effect.
structure Answers where
  read    : Bool
  written : Bool

namespace State

variable (s : State) (key : Key)

def getState (read : Bool) : Record :=
  ((if read then s.redis.lookup key else none).or (s.memory.lookup key)).getD .default

def setState (record : Record) (written : Bool) : State where
  redis  := if written then s.redis.insert key record else s.redis
  memory := s.memory.insert key record

def resetState (written : Bool) : State where
  redis  := if written then s.redis.erase key else s.redis
  memory := s.memory.erase key

end State

-- A finished call of a tool: whether it has a result, and the text of its failure.
structure Payload where
  sessionId : String
  operation : String
  input     : String
  answered  : Bool
  error     : Option String

def Payload.key (payload : Payload) : Key :=
  (payload.sessionId, payload.operation)

-- What `_inject_breaker_message` says.
structure Warning where
  errorText : String
  count     : ℕ
  remaining : ℤ

-- What a `BlockAction` says.
structure BlockAction where
  operation : String
  count     : ℕ
  lastError : String

section Hooks

variable (alphabet : Alphabet) (breakerMax hardMax : ℕ)

-- The record after a failure.
def Record.failed (record : Record) (input errorText : String) : Record :=
  let errorKey := computeErrorKey alphabet errorText
  { record with
    count         := if record.lastErrorKey ≠ "" ∧ record.lastErrorKey = errorKey then record.count + 1 else 1
    lastErrorKey  := errorKey
    lastErrorText := upTo 200 errorText
    lastInput     := upTo 150 input }

def onPostToolResult (s : State) (payload : Payload) (answers : Answers) : State × Option Warning :=
  if payload.sessionId = "" ∨ ¬ payload.answered then (s, none)
  else
    let state := s.getState payload.key answers.read
    match payload.error with
    | none           => (if 0 < state.count then s.resetState payload.key answers.written else s, none)
    | some errorText =>
      let state := state.failed alphabet payload.input errorText
      (s.setState payload.key state answers.written,
        if breakerMax ≤ state.count then some ⟨upTo 200 errorText, state.count, hardMax - state.count⟩ else none)

def checkHardBlock (s : State) (sessionId operation : String) (answers : Answers) : State × Option BlockAction :=
  if sessionId = "" then (s, none)
  else
    let key   := (sessionId, operation)
    let state := s.getState key answers.read
    if state.count < hardMax then (s, none)
    else if state.blocked then (s.setState key { state with blocked := false } answers.written, none)
    else
      (s.setState key { state with blocked := true } answers.written,
        some ⟨operation, state.count, upTo 150 state.lastErrorText⟩)

inductive Event
  | post (payload : Payload) (answers : Answers)
  | pre (sessionId operation : String) (answers : Answers)

def step (s : State) : Event → State
  | .post payload answers            => (onPostToolResult alphabet breakerMax hardMax s payload answers).1
  | .pre sessionId operation answers => (checkHardBlock hardMax s sessionId operation answers).1

end Hooks

end RetryBreaker
