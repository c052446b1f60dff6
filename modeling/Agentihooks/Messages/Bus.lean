import Mathlib.Algebra.Order.Group.Int
import Agentihooks.Library.Run

-- The event bus in memory: logs and work queues whose readers hold each accepted event until one of its deliveries is
-- settled, deliver it again when its wait is over, and give it up after the last delivery its policy allows.

namespace Messages

inductive Envelope
  | event (id swarm content : String)
  | letter (id swarm : String) (event : Envelope) (source : String) (attempts : ℕ)
  deriving DecidableEq

namespace Envelope

def id : Envelope → String
  | .event id .. | .letter id .. => id

def swarm : Envelope → String
  | .event _ swarm _ | .letter _ swarm .. => swarm

end Envelope

-- The tokens between the dots.
abbrev Subject := List String

def subjectMatches : Subject → Subject → Bool
  | [],                   have_       => have_.isEmpty
  | ">" :: _,             have_       => !have_.isEmpty
  | _ :: _,               []          => false
  | token :: want,        part :: rest => (token = "*" || token = part) && subjectMatches want rest

structure QueuePolicy where
  maxDeliver : ℕ
  ackWait    : ℕ
  backoff    : List ℕ
  delivers   : 0 < maxDeliver
  waits      : 0 < ackWait
  fits       : backoff.length ≤ maxDeliver

-- What successive readings of the clock give.
structure Clock where
  reading : ℕ → ℤ
  mono    : ∀ ⦃i j⦄, i ≤ j → reading i ≤ reading j

inductive Feed
  | events
  | dead
  deriving DecidableEq

-- What accepts events.
inductive Source
  | queue (name : String)
  | feed (feed : Feed)
  deriving DecidableEq

-- What delivers them: a work queue delivers its own, a consumer those of a log that match its subject.
inductive Reader
  | queue (name : String)
  | consumer (feed : Feed) (durable : String)
  deriving DecidableEq

namespace Reader

def source : Reader → Source
  | .queue name      => .queue name
  | .consumer feed _ => .feed feed

def identity : Reader → String
  | .queue name         => "queue." ++ name
  | .consumer _ durable => "events." ++ durable

-- The dead log has no dead log of its own.
def letters : Reader → Bool
  | .consumer .dead _ => false
  | _                 => true

end Reader

structure Message where
  event   : Envelope
  attempt : ℕ
  readyAt : ℤ
  settled : Bool

-- A message keeps its place in the heap, where deliveries refer to it, when it leaves the list.
structure Pending where
  heap     : ℕ → Message
  size     : ℕ
  messages : List ℕ
  cursor   : ℕ

inductive Mark
  | delivered (attempt : ℕ)
  | settled (attempt : ℕ)
  | lettered
  | dropped
  deriving DecidableEq

-- How a reader was set up, for good.
structure Setup where
  policy  : QueuePolicy
  subject : Subject

-- `entries` is what a log holds and, for a queue, what it was given; `accepted` and `history` record what happened.
structure Bus where
  reads    : ℕ
  seen     : Source → String → Option ℤ
  entries  : Source → List (Subject × Envelope)
  pending  : Reader → Pending
  accepted : List (Source × String × ℤ)
  history  : List (Reader × ℕ × Mark)

variable (clock : Clock) (window : ℕ) (hash : String → String → String) (setup : Reader → Setup)

def QueuePolicy.waitMs (policy : QueuePolicy) (attempt : ℕ) : ℤ :=
  match policy.backoff[min attempt policy.backoff.length - 1]? with
  | some wait => wait
  | none      => policy.ackWait

def deadLetter (event : Envelope) (source : String) (attempts : ℕ) : Envelope :=
  .letter (hash source event.id) event.swarm event source attempts

namespace Pending

def add (p : Pending) (event : Envelope) : Pending :=
  { p with
    heap     := Function.update p.heap p.size ⟨event, 0, 0, false⟩
    size     := p.size + 1
    messages := p.messages ++ [p.size] }

def set (p : Pending) (i : ℕ) (m : Message) : Pending :=
  { p with heap := Function.update p.heap i m }

end Pending

namespace Bus

variable (s : Bus)

def start : Bus where
  reads    := 0
  seen     := fun _ _ => none
  entries  := fun _ => []
  pending  := fun _ => ⟨fun _ => ⟨.event "" "" "", 0, 0, false⟩, 0, [], 0⟩
  accepted := []
  history  := []

def leave (r : Reader) (p : Pending) : Bus :=
  { s with pending := Function.update s.pending r p }

def note (r : Reader) (i : ℕ) (mark : Mark) : Bus :=
  { s with history := s.history ++ [(r, i, mark)] }

def message (r : Reader) (i : ℕ) : Message :=
  (s.pending r).heap i

-- Accepts an event unless its id was accepted within the window.
def accept (source : Source) (subject : Subject) (event : Envelope) : Bus × Bool :=
  let now := clock.reading s.reads
  let kept id := (s.seen source id).filter fun time => now - time < window
  let s := { s with reads := s.reads + 1 }
  if (kept event.id).isSome then
    ({ s with seen := Function.update s.seen source kept }, false)
  else
    ({ s with
      seen     := Function.update s.seen source (Function.update kept event.id (some now))
      entries  := Function.update s.entries source (s.entries source ++ [(subject, event)])
      accepted := s.accepted ++ [(source, event.id, now)] }, true)

def publish (feed : Feed) (subject : Subject) (event : Envelope) : Bus :=
  (s.accept clock window (.feed feed) subject event).1

-- An accepted event joins the queue's pending list at once.
def offer (name : String) (event : Envelope) : Bus :=
  match s.accept clock window (.queue name) [] event with
  | (s, false) => s
  | (s, true)  => s.leave (.queue name) ((s.pending (.queue name)).add event)

-- What a consumer has not read of its log yet.
def unread : Reader → List Envelope
  | .queue _                  => []
  | r@(.consumer feed _) =>
    (((s.entries (.feed feed)).drop (s.pending r).cursor).filter fun e => subjectMatches (setup r).subject e.1).map
      Prod.snd

def pull (r : Reader) : Bus :=
  let p := (s.unread setup r).foldl Pending.add (s.pending r)
  s.leave r { p with cursor := (s.entries r.source).length }

-- A message past its last delivery is given up, to the dead log where there is one.
def expire (r : Reader) (i : ℕ) : Bus :=
  let m := s.message r i
  let s :=
    if r.letters then
      (s.publish clock window .dead ["dead", m.event.swarm]
        (deadLetter hash m.event r.identity m.attempt)).note r i .lettered
    else
      s.note r i .dropped
  s.leave r ((s.pending r).set i { m with settled := true })

def expired (r : Reader) (now : ℤ) (taken : List ℕ) : List ℕ :=
  (s.pending r).messages.filter fun i =>
    let m := s.message r i
    i ∉ taken && !m.settled && (setup r).policy.maxDeliver ≤ m.attempt && m.readyAt ≤ now

-- `_ready`: the next message to deliver, after the messages past their last delivery are given up.
def ready (r : Reader) (taken : List ℕ) : Bus × Option ℕ :=
  let s := s.pull setup r
  let now := clock.reading s.reads
  let s := { s with reads := s.reads + 1 }
  let s := (s.expired setup r now taken).foldl (fun s i => s.expire clock window hash r i) s
  let p := s.pending r
  let s := s.leave r { p with messages := p.messages.filter fun i => !(s.message r i).settled }
  (s, (s.pending r).messages.find? fun i => (s.message r i).readyAt ≤ now && i ∉ taken)

def deliver (r : Reader) (i : ℕ) : Bus :=
  let m := s.message r i
  let attempt := m.attempt + 1
  let readyAt := clock.reading s.reads + (setup r).policy.waitMs attempt
  ({ s with reads := s.reads + 1 }.leave r
    ((s.pending r).set i { m with attempt := attempt, readyAt := readyAt })).note r i (.delivered attempt)

def take (r : Reader) : ℕ → List ℕ → Bus → Bus
  | 0,         _,     s => s
  | batch + 1, taken, s =>
    match s.ready clock window hash setup r taken with
    | (s, none)   => s
    | (s, some i) => take r batch (taken ++ [i]) (s.deliver clock setup r i)

-- `ack` and `term` of a delivery.
def settle (r : Reader) (i attempt : ℕ) : Bus :=
  let m := s.message r i
  if m.attempt = attempt then
    let t := s.leave r ((s.pending r).set i { m with settled := true })
    if m.settled then t else t.note r i (.settled attempt)
  else
    s

-- `nak` of a delivery.
def retry (r : Reader) (i attempt : ℕ) (delay : ℤ) : Bus :=
  let m := s.message r i
  if m.attempt = attempt ∧ m.settled = false then
    { s with reads := s.reads + 1 }.leave r
      ((s.pending r).set i { m with readyAt := clock.reading s.reads + delay })
  else
    s

-- A delivery, named by its message and attempt, has to have been handed out.
inductive Event
  | offer (name : String) (event : Envelope)
  | publish (feed : Feed) (subject : Subject) (event : Envelope)
  | poll (r : Reader)
  | take (r : Reader) (batch : ℕ)
  | ack (r : Reader) (i attempt : ℕ)
  | term (r : Reader) (i attempt : ℕ)
  | nak (r : Reader) (i attempt : ℕ) (delay : ℤ)

def Delivered (r : Reader) (i attempt : ℕ) : Prop :=
  (r, i, .delivered attempt) ∈ s.history

instance (r : Reader) (i attempt : ℕ) : Decidable (s.Delivered r i attempt) :=
  inferInstanceAs (Decidable (_ ∈ _))

-- `poll` is the look a taker has before it waits.
def step (s : Bus) : Event → Bus
  | .offer name event           => s.offer clock window name event
  | .publish feed subject event => s.publish clock window feed subject event
  | .poll r                     => (s.ready clock window hash setup r []).1
  | .take r batch               => take clock window hash setup r batch [] s
  | .ack r i attempt            => if s.Delivered r i attempt then s.settle r i attempt else s
  | .term r i attempt           => if s.Delivered r i attempt then s.settle r i attempt else s
  | .nak r i attempt delay      => if s.Delivered r i attempt then s.retry clock r i attempt delay else s

end Bus
end Messages
