import Agentihooks.Launch.System
import Agentihooks.Fencing.Theorems.Write

-- What launch grants are for.

namespace Launch

open Program Fencing Execution

def stateOf (d : Document) (grantId : String) : Option GrantState :=
  ((d .grants).lookup grantId).map (·.state)

inductive Moves : Option GrantState → Option GrantState → Prop
  | same (state : Option GrantState) : Moves state state
  | issue                            : Moves none (some .issued)
  | register                         : Moves (some .issued) (some .registered)
  | withdraw                         : Moves (some .issued) (some .revoked)
  | revoke                           : Moves (some .registered) (some .revoked)

-- The grant was not revoked when the call was made, nor in what the call read; and the execution was current there.
structure Success.Good (success : Success) : Prop where
  called  : stateOf success.called success.claims.grantId ≠ some .revoked
  seen    : stateOf success.seen success.claims.grantId ≠ some .revoked
  current : success.operation = .register ∨ success.operation = .bound →
    Current (success.seen .executions) success.claims.executionId success.claims.generation

namespace System

variable (authority : LaunchAuthority) (slug : String) (uuid4 : Supply) (s : System)

-- The caller comes to the end of its `disable`.
def Disables (e : Event) (t : WriteAttempt Unit) (outcome : Outcome Unit Swarm) : Prop :=
  ∃ caller now since, e = .step caller now ∧ s.stages caller = .attempted .disable since t ∧
    outcome = s.swarm.commit t now

structure Kept (e : Event) : Prop where
  registered : ∀ id registration, (s.swarm.document .registrations).lookup id = some registration →
    ((s.step authority slug uuid4 e).swarm.document .registrations).lookup id = some registration
  moves      : ∀ grantId, Moves (stateOf s.swarm.document grantId)
    (stateOf (s.step authority slug uuid4 e).swarm.document grantId)
  successes  : ∀ success ∈ (s.step authority slug uuid4 e).successes, success.Good
  disabled   : ∀ t result swarm, s.Disables e t (.committed result swarm) → ∀ grantId,
    stateOf s.swarm.document grantId = some .issued → stateOf swarm.document grantId = some .revoked
  returned   : ∀ t result, s.Disables e t (.returned result) → ∀ grantId, stateOf t.loaded grantId ≠ some .issued

-- No grant that a `disable` commits over has been issued since the load and is still issued.
def Catches (e : Event) : Prop :=
  ∀ t outcome, s.Disables e t outcome → outcome.next.isSome → ∀ grantId, stateOf t.loaded grantId = none →
    stateOf s.swarm.document grantId ≠ some .issued

end System
end Launch

-- What each change makes of the grants and registrations it finds.

namespace Launch

open Program Fencing Execution

variable {authority : LaunchAuthority} {c : History} {d after : Document} {claims : LaunchClaims} {now : Int}
variable {grantId id : String} {task : Task} {audit : Grant} {registration : Registration} {r : Unit}

theorem issued_ok {found : Option Grant} (h : issued found = .ok audit) :
    found = some audit ∧ audit.state ≠ .revoked := by
  cases found
  case none => cases h
  case some found =>
    simp only [issued] at h
    split at h
    case isTrue     => cases h
    case isFalse hn =>
      cases h
      exact ⟨rfl, hn⟩

theorem exec_record {execution : AgentRecord}
    (h : (record execution grantId audit).exec c d = .ok (r, after)) : after = d.put .grants grantId audit := by
  simp only [record, grantsDisabled, exec_bind_assoc, exec_read, exec_pure_bind, exec_ensure, exec_scan, guard_ok] at h
  obtain ⟨-, -, h⟩ := h
  rw [exec_write_done] at h
  cases h
  rfl

-- A registration that is there is returned, and one that is not is made.
theorem exec_admitRegistration (h : (admitRegistration authority claims now).exec c d = .ok (registration, after)) :
    ∃ audit, (d .grants).lookup claims.grantId = some audit ∧ audit.state ≠ .revoked ∧
      Current (d .executions) claims.executionId claims.generation ∧
      (after = d ∨ (d .registrations).lookup claims.executionId = none ∧
        after = (d.put .registrations claims.executionId registration).put .grants claims.grantId
          { audit with state := .registered }) := by
  simp only [admitRegistration, exec_read, exec_attempt_bind] at h
  split at h
  case h_2 => cases h
  case h_1 audit hi =>
    obtain ⟨hf, hn⟩ := issued_ok hi
    simp only [exec_scan, exec_ensure, guard_ok, exec_read] at h
    obtain ⟨hc, h⟩ := h
    refine ⟨audit, hf, hn, hc, ?_⟩
    split at h
    case h_1 => cases h
    case h_2 =>
      simp only [exec_ensure, guard_ok, exec_read] at h
      obtain ⟨-, h⟩ := h
      split at h
      case h_1 =>
        simp only [exec_ensure, guard_ok, exec_pure] at h
        cases h.right
        exact .inl rfl
      case h_2 hr =>
        simp only [grantsDisabled, exec_bind_assoc, exec_read, exec_pure_bind, exec_ensure, guard_ok, exec_write,
          exec_pure] at h
        cases h.right
        exact .inr ⟨hr, rfl⟩

theorem exec_rewrite {change : Grant → Except SwarmError (Option Grant)} {result : Option Grant}
    (h : (rewrite grantId change).exec c d = .ok (result, after)) :
    ∃ audit, (d .grants).lookup grantId = some audit ∧ change audit = .ok result ∧
      after = result.elim d fun audit => d.put .grants grantId audit := by
  simp only [rewrite, exec_read] at h
  split at h
  case h_1 => cases h
  case h_2 audit hf =>
    simp only [exec_attempt_bind] at h
    split at h
    case h_2 => cases h
    case h_1 changed hc =>
      split at h
      case h_1 =>
        simp only [exec_write, exec_pure] at h
        cases h
        exact ⟨audit, hf, hc, rfl⟩
      case h_2 =>
        cases h
        exact ⟨audit, hf, hc, rfl⟩

theorem exec_disable {ids : Finset String} (h : (disable authority now).exec c d = .ok (ids, after)) :
    after = (d.put .scalar .grantsDisabled (authority.timestamp now)).update .grants (outstanding (d .grants)) := by
  simp only [disable, exec_scan, exec_write, exec_writeAll, exec_pure] at h
  cases h
  rfl

-- What the write of a task leaves of a document.
inductive Effect (d : Document) : Task → Document → Prop
  | record execution grantId audit : Effect d (.record execution grantId audit) (d.put .grants grantId audit)
  | registered {claims : LaunchClaims} {audit : Grant} (found : (d .grants).lookup claims.grantId = some audit)
    (live : audit.state ≠ .revoked) (current : Current (d .executions) claims.executionId claims.generation) :
    Effect d (.register claims) d
  | register {claims : LaunchClaims} {audit : Grant} (registration : Registration)
    (found : (d .grants).lookup claims.grantId = some audit) (live : audit.state ≠ .revoked)
    (current : Current (d .executions) claims.executionId claims.generation)
    (free : (d .registrations).lookup claims.executionId = none) : Effect d (.register claims)
      ((d.put .registrations claims.executionId registration).put .grants claims.grantId
        { audit with state := .registered })
  | extend {claims : LaunchClaims} {audit : Grant} (expiresAt : String) (extended : Grant)
    (found : (d .grants).lookup claims.grantId = some audit) (live : audit.state ≠ .revoked)
    (state : extended.state = audit.state) : Effect d (.extend claims expiresAt) (d.put .grants claims.grantId extended)
  | revoke {grantId : String} {audit : Grant} (found : (d .grants).lookup grantId = some audit)
    (live : audit.state ≠ .revoked) : Effect d (.revoke grantId) (d.put .grants grantId { audit with state := .revoked })
  | revoked grantId : Effect d (.revoke grantId) d
  | disable text : Effect d .disable ((d.put .scalar .grantsDisabled text).update .grants (outstanding (d .grants)))
  | other {task : Task} {after : Document} (hn : task ≠ .disable) (hr : ∀ claims, task ≠ .register claims)
    (he : ∀ claims expiresAt, task ≠ .extend claims expiresAt) (grants : after .grants = d .grants)
    (registrations : after .registrations = d .registrations) : Effect d task after

theorem effect_task (h : (task.write authority now).change.exec c d = .ok (r, after)) : Effect d task after := by
  cases task
  case record execution grantId audit =>
    rw [exec_record h]
    exact .record ..
  case register claims =>
    obtain ⟨registration, h, -⟩ := exec_map_ok h
    obtain ⟨audit, hf, hl, hc, rfl | ⟨hn, rfl⟩⟩ := exec_admitRegistration h
    case inl => exact .registered hf hl hc
    case inr => exact .register registration hf hl hc hn
  case extend claims expiresAt =>
    obtain ⟨result, h, -⟩ := exec_map_ok h
    obtain ⟨audit, hf, hc, rfl⟩ := exec_rewrite h
    simp only [Launch.extend] at hc
    split at hc
    case isTrue => cases hc
    case isFalse hl =>
      cases hc
      exact .extend expiresAt _ hf hl rfl
  case revoke grantId =>
    obtain ⟨result, h, -⟩ := exec_map_ok h
    obtain ⟨audit, hf, hc, rfl⟩ := exec_rewrite h
    simp only [Function.comp_apply, revokedGrant, Except.ok.injEq] at hc
    split at hc
    case isTrue =>
      cases hc
      exact .revoked grantId
    case isFalse hl =>
      cases hc
      exact .revoke hf hl
  case disable =>
    obtain ⟨ids, h, -⟩ := exec_map_ok h
    have he : after = _ := exec_disable h
    rw [he]
    exact .disable _
  case enable =>
    cases h
    exact .other (by simp) (by simp) (by simp) (Sections.put_other (by simp)) (Sections.put_other (by simp))
  case work w =>
    obtain ⟨hg, hr⟩ := w.keeps h
    exact .other (by simp) (by simp) (by simp) hg hr

theorem stateOf_put {grantId' : String} :
    stateOf (d.put .grants grantId audit) grantId' = if grantId' = grantId then some audit.state else stateOf d grantId' := by
  rw [stateOf, Sections.put_same, Finmap.lookup_union]
  by_cases h : grantId' = grantId
  case pos =>
    subst h
    simp
  case neg => simp [h, stateOf, Finmap.lookup_singleton_of_ne h]

theorem lookup_outstanding {grants : Dict String Grant} :
    (outstanding grants).lookup grantId =
      ((grants.lookup grantId).filter (·.state = .issued)).map fun audit => { audit with state := .revoked } := by
  rw [outstanding, Finmap.lookup_mapValues, Finmap.lookup_restrict]
  cases grants.lookup grantId
  case none       => simp
  case some audit => by_cases hs : audit.state = .issued <;> simp [hs]

-- Every issued grant of the document is revoked, and no other is changed.
theorem stateOf_disable {text : String} :
    stateOf ((d.put .scalar .grantsDisabled text).update .grants (outstanding (d .grants))) grantId =
      if stateOf d grantId = some .issued then some .revoked else stateOf d grantId := by
  rw [stateOf, Sections.update_same, Finmap.lookup_union, lookup_outstanding,
    Sections.put_other (by simp), stateOf]
  cases (d .grants).lookup grantId
  case none       => simp
  case some audit => by_cases hs : audit.state = .issued <;> simp [hs, Option.filter]

namespace Effect

variable (h : Effect d task after)
include h

theorem moves (hf : ∀ execution audit, task = .record execution grantId audit → stateOf d grantId = none ∧ audit.state = .issued) :
    Moves (stateOf d grantId) (stateOf after grantId) := by
  cases h
  case record execution grantId' audit =>
    rw [stateOf_put]
    split
    case isTrue heq =>
      subst heq
      obtain ⟨hn, hs⟩ := hf execution audit rfl
      rw [hn, hs]
      exact .issue
    case isFalse => exact .same _
  case registered => exact .same _
  case register claims audit registration found live _ _ =>
    rw [stateOf_put]
    split
    case isTrue heq =>
      subst heq
      rw [stateOf, found]
      cases hs : audit.state
      case issued     => simpa [hs] using Moves.register
      case registered => simpa [hs] using Moves.same _
      case revoked    => exact (live hs).elim
    case isFalse =>
      rw [stateOf, stateOf, Sections.put_other (by simp)]
      exact .same _
  case extend claims audit _ extended found _ state =>
    rw [stateOf_put]
    split
    case isTrue heq =>
      subst heq
      rw [stateOf, found, state]
      exact .same _
    case isFalse => exact .same _
  case revoke audit found live =>
    rw [stateOf_put]
    split
    case isTrue heq =>
      subst heq
      rw [stateOf, found]
      cases hs : audit.state
      case issued     => simpa [hs] using Moves.withdraw
      case registered => simpa [hs] using Moves.revoke
      case revoked    => exact (live hs).elim
    case isFalse => exact .same _
  case revoked => exact .same _
  case disable =>
    rw [stateOf_disable]
    split
    case isTrue hs  => rw [hs]; exact .withdraw
    case isFalse    => exact .same _
  case other grants _ =>
    rw [stateOf, stateOf, grants]
    exact .same _

theorem registrations (hr : (d .registrations).lookup id = some registration) :
    (after .registrations).lookup id = some registration := by
  cases h
  case register claims _ _ _ _ _ free =>
    have hne : id ≠ claims.executionId := by
      rintro rfl
      cases free.symm.trans hr
    rw [Sections.put_other (by simp), Sections.put_same, Finmap.lookup_union, Finmap.lookup_singleton_of_ne hne,
      Option.none_or, hr]
  case other hr' => rw [hr', hr]
  case registered => exact hr
  case revoked    => exact hr
  case disable    => rw [Sections.update_other (by simp), Sections.put_other (by simp), hr]
  all_goals rw [Sections.put_other (by simp), hr]

end Effect
end Launch
