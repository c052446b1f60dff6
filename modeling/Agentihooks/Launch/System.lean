import Agentihooks.Library.Run
import Agentihooks.Fencing.Write
import Agentihooks.Execution.System
import Agentihooks.Launch.Grants

-- The launch grants of one swarm: any number of callers, each in one call, on either layout. The load and the commit of
-- a write are steps of their own, and a write that meets another one is loaded again.

namespace Launch

open Program Fencing Execution

-- What starts and ends executions leaves the grants and registrations alone.
structure Work where
  write : FencedWrite Unit
  keeps : ∀ {c d r d'}, write.change.exec c d = .ok (r, d') → d' .grants = d .grants ∧
    d' .registrations = d .registrations

inductive Call
  | issue (executionId : String) (terms : Terms)
  | register (claims : LaunchClaims) (body : Option (Dict String TargetValue))
  | verify (claims : LaunchClaims)
  | bound (claims : LaunchClaims)
  | renew (claims : LaunchClaims)
  | revoke (executionId : String)
  | withdraw (claims : LaunchClaims)
  | disable
  | enable
  | work (w : Work)

-- The writes of the calls.
inductive Task
  | record (execution : AgentRecord) (grantId : String) (audit : Grant)
  | register (claims : LaunchClaims)
  | extend (claims : LaunchClaims) (expiresAt : String)
  | revoke (grantId : String)
  | disable
  | enable
  | work (w : Work)

variable (authority : LaunchAuthority) (slug : String) (uuid4 : Supply)

def Task.write (now : Int) : Task → FencedWrite Unit
  | .record execution grantId audit => ⟨Launch.record execution grantId audit, .plain, none⟩
  | .register claims                => ⟨(fun _ => ()) <$> admitRegistration authority claims now, .plain, none⟩
  | .extend claims expiresAt        => ⟨(fun _ => ()) <$> rewrite claims.grantId (Launch.extend expiresAt), .plain, none⟩
  | .revoke grantId                 => ⟨(fun _ => ()) <$> rewrite grantId (.ok ∘ revokedGrant), .plain, none⟩
  | .disable                        => ⟨(fun _ => ()) <$> Launch.disable authority now, .plain, none⟩
  | .enable                         => ⟨Launch.enable, .plain, none⟩
  | .work w                         => Work.write w

inductive Operation
  | register
  | verify
  | bound
  | renew
  deriving DecidableEq

-- A call that succeeded: the document when it was called and the one it read.
structure Success where
  operation : Operation
  claims    : LaunchClaims
  called    : Document
  seen      : Document

-- A call under way has the document it was called at. `bounding` is between the two reads of `bound`.
inductive Stage
  | idle
  | called (call : Call) (since : Document)
  | bounding (claims : LaunchClaims) (renewing : Bool) (since seen : Document)
  | ready (task : Task) (since : Document)
  | attempted (task : Task) (since : Document) (attempt : WriteAttempt Unit)

structure System where
  swarm     : Swarm
  drawn     : ℕ
  stages    : ℕ → Stage
  successes : List Success

inductive Event
  | call (caller : ℕ) (call : Call)
  | step (caller : ℕ) (now : Int)
  | hydrate (caller : ℕ)
  | stop (caller : ℕ)

-- What `execution` finds, in the executions or in the archive.
def rowOf (swarm : Swarm) (executionId : String) : Option AgentRecord :=
  if swarm.entry.moved then
    ((loadedDocument swarm.store .executions).lookup executionId).or
      (((swarm.store.rows .archive).lookup executionId).map Versioned.Record.value)
  else
    ((swarm.entry.document .executions).lookup executionId).or
      (((swarm.entry.document .archive).lookup executionId).or (swarm.entry.external.lookup executionId))

-- `verify`, with the document it reads.
def verifies (d : Document) (claims : LaunchClaims) : Except SwarmError Grant :=
  issued ((d .grants).lookup claims.grantId)

-- What `bound` makes of its two reads.
def boundBy (claims : LaunchClaims) (seen : Document) (registration : Option Registration) :
    Except SwarmError Registration :=
  match registration with
  | none              => .error Refusal.notRegistered
  | some registration =>
    if registration.grantId ≠ claims.grantId then
      .error Refusal.notRegistered
    else
      match (seen .grants).lookup registration.grantId with
      | none       => .error Refusal.missing
      | some audit =>
        if audit.state = .revoked then
          .error Refusal.revoked
        else if Current (seen .executions) claims.executionId claims.generation then
          .ok registration
        else
          .error Refusal.superseded

namespace System

variable (s : System)

def leave (caller : ℕ) (stage : Stage) : System :=
  { s with stages := Function.update s.stages caller stage }

def succeed (caller : ℕ) (success : Success) : System :=
  { s.leave caller .idle with successes := s.successes ++ [success] }

-- The first access of a call.
def enter (caller : ℕ) (now : Int) (since : Document) : Call → System
  | .issue executionId terms =>
    let grantId := "lgr-" ++ uuid4.hex s.drawn
    let s := { s with drawn := s.drawn + 1 }
    match rowOf s.swarm executionId with
    | none           => s.leave caller .idle
    | some execution =>
      match claimsFor authority slug grantId terms now execution with
      | .error _   => s.leave caller .idle
      | .ok claims => s.leave caller (.ready (.record execution grantId (auditOf authority claims)) since)
  | .register claims body =>
    match checkClaims authority slug claims now, checkBody claims body with
    | .ok _, .ok _ => s.leave caller (.ready (.register claims) since)
    | _, _         => s.leave caller .idle
  | .verify claims =>
    match checkClaims authority slug claims now, verifies s.swarm.document claims with
    | .ok _, .ok _ => s.succeed caller ⟨.verify, claims, since, s.swarm.document⟩
    | _, _         => s.leave caller .idle
  | .bound claims =>
    match checkClaims authority slug claims now with
    | .ok _    => s.leave caller (.bounding claims false since s.swarm.document)
    | .error _ => s.leave caller .idle
  | .renew claims =>
    match checkClaims authority slug claims now with
    | .ok _    => s.leave caller (.bounding claims true since s.swarm.document)
    | .error _ => s.leave caller .idle
  | .revoke executionId =>
    match (s.swarm.document .registrations).lookup executionId with
    | some registration => s.leave caller (.ready (.revoke registration.grantId) since)
    | none              => s.leave caller .idle
  | .withdraw claims =>
    match checkClaims authority slug claims now with
    | .ok _    => s.leave caller (.ready (.revoke claims.grantId) since)
    | .error _ => s.leave caller .idle
  | .disable   => s.leave caller (.ready .disable since)
  | .enable    => s.leave caller (.ready .enable since)
  | .work w    => s.leave caller (.ready (.work w) since)

-- A write that came through, of which `register` and `renew` return something.
def finish (caller : ℕ) (since seen : Document) : Task → System
  | .register claims => s.succeed caller ⟨.register, claims, since, seen⟩
  | .extend claims _ => s.succeed caller ⟨.renew, claims, since, seen⟩
  | _                => s.leave caller .idle

def advance (caller : ℕ) (now : Int) : Stage → System
  | .idle => s
  | .called call since => s.enter authority slug uuid4 caller now since call
  | .bounding claims renewing since seen =>
    match boundBy claims seen ((s.swarm.document .registrations).lookup claims.executionId) with
    | .error _ => s.leave caller .idle
    | .ok _    =>
      if renewing then
        s.leave caller (.ready (.extend claims (authority.timestamp (now + authority.ttl))) since)
      else
        s.succeed caller ⟨.bound, claims, since, seen⟩
  | .ready task since => s.leave caller (.attempted task since (s.swarm.start (task.write authority now)))
  | .attempted task since attempt =>
    match s.swarm.commit attempt now with
    | .raised _           => s.leave caller .idle
    | .returned _         => s.finish caller since attempt.loaded task
    | .refused .stale     => s.leave caller .idle
    | .refused .conflict  => s.leave caller (.ready task since)
    | .committed _ swarm  => { s with swarm := swarm }.finish caller since attempt.loaded task

def step (s : System) : Event → System
  | .call caller call =>
    match s.stages caller with
    | .idle => s.leave caller (.called call s.swarm.document)
    | _     => s
  | .step caller now => s.advance authority slug uuid4 caller now (s.stages caller)
  | .hydrate caller =>
    match s.stages caller with
    | .attempted task since attempt => s.leave caller (.attempted task since (attempt.hydrate s.swarm.store))
    | _                           => s
  | .stop caller => s.leave caller .idle

def start (swarm : Swarm) : System :=
  ⟨swarm, 0, fun _ => .idle, []⟩

end System
end Launch
