import Mathlib.Data.List.Dedup
import Agentihooks.Chunks.Payload
import Agentihooks.Library.Run
import Agentihooks.Library.SubjectLog

-- The writers of a state bucket and the collectors of its chunks. A writer stages the chunks of its value under its
-- token, publishes under the key if the key's newest revision is the expected one, and then reclaims the chunks of
-- older revisions or, on a conflict, discards its own. A sweep removes the chunks that idle writers left.

namespace Chunks

-- A chunk's subject holds its token and index. A key is any name outside of these.
inductive Subject (Key Owner : Type)
  | name (key : Key)
  | chunk (token : Token Owner) (index : ℕ)
  deriving DecidableEq

variable {Key Owner : Type}

namespace Subject

def key? : Subject Key Owner → Option Key
  | name key  => some key
  | chunk _ _ => none

def chunk? : Subject Key Owner → Option (Token Owner × ℕ)
  | name _            => none
  | chunk token index => some (token, index)

end Subject

-- A bucket: `owner` hashes a subject's name, and no two keys have one hash.
structure Config (Key Owner : Type) where
  codec    : Codec Owner
  owner    : Subject Key Owner → Owner
  distinct : ∀ k k', owner (.name k) = owner (.name k') → k = k'
  retained : ℕ
  retains  : 0 < retained
  idle     : ℕ

-- A create expects revision 0. `limit` is the server's payload budget.
structure Write (Key Owner : Type) where
  subject : Subject Key Owner
  value   : Bytes
  base    : ℕ
  limit   : ℕ
  roomy   : 128 ≤ limit

inductive Stage
  | staging (index : ℕ)
  | refused
  | committed
  | ended
  deriving DecidableEq

-- `since` is the time of the first chunk and `landed` the revision that the write got.
structure Writer (Key Owner : Type) where
  write  : Write Key Owner
  token  : Token Owner
  since  : Option ℕ
  landed : Option ℕ
  stage  : Stage

-- The chunks listed for one token.
abbrev Group (Owner : Type) := Token Owner × List ℕ

inductive Phase (Key Owner : Type)
  | aging (now : ℕ) (listed : List (Group Owner)) (keys : List Key) (stale : List (Group Owner))
  | reading (todo : List (Subject Key Owner)) (cursor : ℕ) (stale : List (Group Owner))
  | purging (names : List (Token Owner × ℕ))

structure Collector (Key Owner : Type) where
  sweeping : Bool
  phase    : Phase Key Owner

abbrev Log (Key Owner : Type) := SubjectLog (Subject Key Owner) Bytes

structure State (Key Owner : Type) where
  clock      : ℕ
  log        : Log Key Owner
  writers    : List (Writer Key Owner)
  collectors : List (Collector Key Owner)

inductive Event (Key Owner : Type)
  | tick (n : ℕ)
  | start (write : Write Key Owner)
  | stage (i : ℕ)
  | commit (i : ℕ)
  | discard (i : ℕ)
  | reclaim (i : ℕ)
  | sweep (now : ℕ)
  | collect (j : ℕ)

variable [DecidableEq Key] [DecidableEq Owner] (c : Config Key Owner) (s : State Key Owner)

def Writer.encoded (w : Writer Key Owner) : Encoded :=
  encode c.codec w.write.limit w.token w.write.value

namespace State

def start : State Key Owner :=
  ⟨0, .empty, [], []⟩

def setWriter (i : ℕ) (w : Writer Key Owner) : State Key Owner :=
  { s with writers := s.writers.set i w }

def setStage (i : ℕ) (w : Writer Key Owner) (stage : Stage) : State Key Owner :=
  s.setWriter i { w with stage }

-- The writer's token is fresh.
def open_ (write : Write Key Owner) : State Key Owner :=
  let token := ⟨c.owner write.subject, write.base, s.writers.length⟩
  { s with writers := s.writers ++ [⟨write, token, none, none, .staging 0⟩] }

-- A chunk that is already there is left as it is.
def createChunk (token : Token Owner) (index : ℕ) (piece : Bytes) : State Key Owner :=
  { s with log := (s.log.publish c.retained (.chunk token index) 0 piece s.clock).getD s.log }

def stage (i : ℕ) : State Key Owner :=
  match s.writers[i]? with
  | none   => s
  | some w =>
    match w.stage with
    | .staging index =>
      match (w.encoded c).pieces[index]? with
      | none       => s
      | some piece =>
        (s.createChunk c w.token index piece).setWriter i
          { w with since := w.since.or (some s.clock), stage := .staging (index + 1) }
    | _ => s

def publish (i : ℕ) (w : Writer Key Owner) : State Key Owner :=
  match s.log.publish c.retained w.write.subject w.write.base (w.encoded c).stored s.clock with
  | none     => s.setStage i w .refused
  | some log => { s with log }.setWriter i { w with landed := some log.last, stage := .committed }

def commit (i : ℕ) : State Key Owner :=
  match s.writers[i]? with
  | none   => s
  | some w =>
    match w.stage with
    | .staging index => if (w.encoded c).pieces.length ≤ index then s.publish c i w else s
    | _              => s

def purge (p : Subject Key Owner → Bool) : State Key Owner :=
  { s with log := s.log.purge p }

def discard (i : ℕ) : State Key Owner :=
  match s.writers[i]? with
  | none   => s
  | some w =>
    match w.stage with
    | .refused =>
      match tokenOf c.codec (w.encoded c).stored with
      | none       => s.setStage i w .ended
      | some token => (s.purge fun x => x.chunk?.any fun n => n.1 = token).setStage i w .ended
    | _ => s

-- The chunks whose subject is in the log.
def listed : List (Token Owner × ℕ) :=
  (s.log.messages.filterMap fun m => m.subject.chunk?).dedup

def keys : List Key :=
  (s.log.messages.filterMap fun m => m.subject.key?).dedup

def groups (names : List (Token Owner × ℕ)) : List (Group Owner) :=
  (names.map Prod.fst).dedup.map fun token => (token, (names.filter fun n => n.1 = token).map Prod.snd)

def below (subject : Subject Key Owner) (seq : ℕ) : List (Group Owner) :=
  groups (s.listed.filter fun n => n.1.owner = c.owner subject ∧ n.1.base < seq)

def addCollector (collector : Collector Key Owner) : State Key Owner :=
  { s with collectors := s.collectors ++ [collector] }

def reclaim (i : ℕ) : State Key Owner :=
  match s.writers[i]? with
  | none   => s
  | some w =>
    match w.stage, w.landed with
    | .committed, some seq =>
      let ended := s.setStage i w .ended
      if s.below c w.write.subject seq = [] then ended
      else ended.addCollector ⟨false, .reading [w.write.subject] 1 (s.below c w.write.subject seq)⟩
    | _, _ => s

-- The time is read before the log is listed.
def sweep (now : ℕ) : State Key Owner :=
  if now ≤ s.clock then s.addCollector ⟨true, .aging now (groups s.listed) s.keys []⟩ else s

def idle (now : ℕ) (group : Group Owner) : Bool :=
  (s.log.get (.chunk group.1 (group.2.max?.getD 0))).any fun m => m.time + c.idle ≤ now

def owned (keys : List Key) (stale : List (Group Owner)) : List (Subject Key Owner) :=
  (keys.map Subject.name).filter fun x => c.owner x ∈ stale.map fun g => g.1.owner

def unreferenced (value : Bytes) (stale : List (Group Owner)) : List (Group Owner) :=
  stale.filter fun g => tokenOf c.codec value ≠ some g.1

def names (stale : List (Group Owner)) : List (Token Owner × ℕ) :=
  stale.flatMap fun g => g.2.map (g.1, ·)

-- The next phase of a collector, and the chunk that it purges on the way.
def advance : Phase Key Owner → Phase Key Owner × Option (Token Owner × ℕ)
  | .aging now [] keys stale => (.reading (owned c keys stale) 1 stale, none)
  | .aging now (group :: listed) keys stale =>
    (.aging now listed keys (if s.idle c now group then stale ++ [group] else stale), none)
  | .reading [] _ stale => (.purging (names stale), none)
  | .reading (x :: todo) cursor stale =>
    match s.log.next x cursor with
    | none   => (.reading todo 1 stale, none)
    | some m => (.reading (x :: todo) (m.seq + 1) (unreferenced c m.data stale), none)
  | .purging []             => (.purging [], none)
  | .purging (name :: rest) => (.purging rest, some name)

def collect (j : ℕ) : State Key Owner :=
  match s.collectors[j]? with
  | none           => s
  | some collector =>
    let next := s.advance c collector.phase
    { s.purge fun x => decide (x.chunk?.isSome ∧ x.chunk? = next.2) with
      collectors := s.collectors.set j { collector with phase := next.1 } }

end State

def step : Event Key Owner → State Key Owner
  | .tick n      => { s with clock := s.clock + n }
  | .start write => s.open_ c write
  | .stage i     => s.stage c i
  | .commit i    => s.commit c i
  | .discard i   => s.discard c i
  | .reclaim i   => s.reclaim c i
  | .sweep now   => s.sweep now
  | .collect j   => s.collect c j

def read (token : Token Owner) (index : ℕ) : Option Bytes :=
  (s.log.get (.chunk token index)).map SubjectLog.Message.data

end Chunks
