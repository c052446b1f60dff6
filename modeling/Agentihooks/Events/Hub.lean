import Agentihooks.Library.Finmap
import Agentihooks.Library.Run
import Agentihooks.Events.Patch

-- The event channel of one ledger with its publishers and subscribers. Every action is one critical section of the
-- hub, or what a connection does between two of them.

namespace Events

abbrev Resources :=
  Finmap fun _ : String => JsonValue

-- A value to publish: no object of it repeats a key.
structure Value where
  json     : JsonValue
  distinct : json.distinct

structure Event where
  seq   : ℕ
  name  : String
  patch : Patch
  rev   : Option ℚ

-- One life of a channel. `published` are all of its events, of which the log keeps the last ones.
structure Channel where
  epoch       : ℕ
  seq         : ℕ
  published   : List Event
  resources   : Resources
  subscribers : ℕ

def revision (value : JsonValue) : Option ℚ := do
  let info ← value.get? "_meta"
  match ← info.get? "rev" with
  | .scalar s => s.number
  | _         => none

namespace Channel

variable (channel : Channel) (retained : ℕ)

def log : List Event :=
  channel.published.drop (channel.published.length - retained)

def oldest : ℕ :=
  ((channel.log retained).head?.map fun e => e.seq - 1).getD channel.seq

def after (seq : ℕ) : List Event :=
  (channel.log retained).filter (seq < ·.seq)

-- A ledger is published over one of the same or an earlier revision; a ledger without a revision raises.
def accepts (name : String) (value old : JsonValue) : Bool :=
  if name = "ledger" then
    match revision value, revision old with
    | some rev, some rev' => rev' ≤ rev
    | _,        _         => false
  else
    true

-- `_publish`.
def publish (name : String) (value : JsonValue) (shared : Bool) : Channel :=
  match channel.resources.lookup name with
  | none     => { channel with resources := channel.resources.insert name value }
  | some old =>
    if accepts name value old then
      match diff old value with
      | none       => channel
      | some patch =>
        { channel with
          seq       := channel.seq + 1
          published := channel.published ++ [⟨channel.seq + 1, name, patch, if name = "ledger" then revision value else none⟩]
          resources := channel.resources.insert name (if shared then value else apply old patch) }
    else
      channel

end Channel

inductive Frame
  | snapshot (seq : ℕ) (resources : Resources)
  | event (e : Event)

-- How far a connection is: `open` loads and reads, `serve` sends what is pending and waits. The cursor of `open` is
-- the seq after which it resumes.
inductive Phase
  | away
  | loading (cursor : Option ℕ)
  | reading (cursor : Option ℕ)
  | serving (seq : ℕ) (pending : List Frame)

-- A client has the last id it received, as the epoch of the channel and a seq, and what it holds by then.
structure Client where
  phase  : Phase
  cursor : Option (ℕ × ℕ)
  held   : Resources

-- A client folds the events of the names it holds.
def receive (held : Resources) (e : Event) : Resources :=
  match held.lookup e.name with
  | some v => held.insert e.name (apply v e.patch)
  | none   => held

structure State (κ : Type) where
  channel : Option Channel
  epochs  : ℕ
  clients : κ → Client

inductive Action (κ : Type)
  | connect (client : κ) (resume : Bool)
  | load (client : κ) (values : Option Resources)
  | read (client : κ)
  | deliver (client : κ)
  | wait (client : κ)
  | hangUp (client : κ)
  | publish (name : String) (value : Value) (shared : Bool)
  | evict

namespace State

variable {κ : Type} [DecidableEq κ] (s : State κ)

def init : State κ where
  channel := none
  epochs  := 0
  clients := fun _ => ⟨.away, none, ∅⟩

def put (c : κ) (client : Client) : State κ :=
  { s with clients := Function.update s.clients c client }

-- The client is to load if the channel has no resources.
def subscribe (c : κ) (channel : Channel) (cursor : Option ℕ) : State κ :=
  let phase := if channel.resources.keys = ∅ then .loading cursor else .reading cursor
  let s := s.put c { s.clients c with phase }
  { s with channel := some { channel with subscribers := channel.subscribers + 1 } }

-- `Expired` before any event: the client starts over.
def expire (c : κ) : State κ :=
  s.put c ⟨.away, none, ∅⟩

-- `open`, up to the load.
def connect (retained : ℕ) (c : κ) (resume : Bool) : State κ :=
  match (s.clients c).phase with
  | .away =>
    if resume then
      match (s.clients c).cursor, s.channel with
      | some (epoch, seq), some channel =>
        if epoch = channel.epoch ∧ channel.oldest retained ≤ seq ∧ seq ≤ channel.seq then
          s.subscribe c channel (some seq)
        else
          s.expire c
      | _,                 _            => s.expire c
    else
      match s.channel with
      | some channel => s.subscribe c channel none
      | none         => { s with epochs := s.epochs + 1 }.subscribe c ⟨s.epochs, 0, [], ∅, 0⟩ none
  | _     => s

-- `close`.
def close (c : κ) (channel : Channel) : State κ :=
  let s := s.put c { s.clients c with phase := .away }
  { s with channel := some { channel with subscribers := channel.subscribers - 1 } }

-- What `load` answered is merged under `setdefault`; it may also raise.
def load (c : κ) (values : Option Resources) : State κ :=
  match (s.clients c).phase, s.channel with
  | .loading cursor, some channel =>
    match values with
    | none        => s.close c channel
    | some values =>
      let s := s.put c { s.clients c with phase := .reading cursor }
      { s with channel := some { channel with resources := channel.resources ∪ values } }
  | _,               _            => s

-- The first events of `open`: the retained ones after a cursor, or a snapshot.
def read (retained : ℕ) (c : κ) : State κ :=
  match (s.clients c).phase, s.channel with
  | .reading (some seq), some channel =>
    s.put c { s.clients c with phase := .serving seq ((channel.after retained seq).map .event) }
  | .reading none,       some channel =>
    s.put c { s.clients c with phase := .serving channel.seq [.snapshot channel.seq channel.resources] }
  | _,                   _            => s

-- The next pending frame reaches the client.
def deliver (c : κ) : State κ :=
  match (s.clients c).phase, s.channel with
  | .serving _ (.snapshot seq resources :: rest), some channel =>
    s.put c ⟨.serving seq rest, some (channel.epoch, seq), resources⟩
  | .serving _ (.event e :: rest),                some channel =>
    s.put c ⟨.serving e.seq rest, some (channel.epoch, e.seq), receive (s.clients c).held e⟩
  | _,                                            _            => s

-- `wait`, which answers the events after a seq; once they fell out of retention there is a snapshot to read.
def wait (retained : ℕ) (c : κ) : State κ :=
  match (s.clients c).phase, s.channel with
  | .serving seq [], some channel =>
    if channel.seq = seq then
      s
    else if (channel.log retained).head?.any (seq + 1 < ·.seq) then
      s.put c { s.clients c with phase := .reading none }
    else
      s.put c { s.clients c with phase := .serving seq ((channel.after retained seq).map .event) }
  | _,               _            => s

def hangUp (c : κ) : State κ :=
  match (s.clients c).phase, s.channel with
  | .serving _ _, some channel => s.close c channel
  | _,            _            => s

def publish (name : String) (value : Value) (shared : Bool) : State κ :=
  { s with channel := s.channel.map (·.publish name value.json shared) }

def evict : State κ :=
  { s with channel := s.channel.filter (0 < ·.subscribers) }

def step (retained : ℕ) (s : State κ) : Action κ → State κ
  | .connect c resume          => s.connect retained c resume
  | .load c values             => s.load c values
  | .read c                    => s.read retained c
  | .deliver c                 => s.deliver c
  | .wait c                    => s.wait retained c
  | .hangUp c                  => s.hangUp c
  | .publish name value shared => s.publish name value shared
  | .evict                     => s.evict

def run (retained : ℕ) (actions : List (Action κ)) : State κ :=
  Run.run (step retained) init actions

-- Where the client reads after its cursor, it finds all events that were published since.
def Kept (retained : ℕ) (client : κ) (s : State κ) : Action κ → Prop
  | .read c => c = client → ∀ seq channel, (s.clients c).phase = .reading (some seq) → s.channel = some channel →
      channel.after retained seq = channel.published.filter (seq < ·.seq)
  | _       => True

end State

end Events
