import Agentihooks.Authority.Claims

-- What each operation of the authority does when it is accepted.

namespace Authority

open Program Fencing Fencing.Change Execution

variable {d d' : Document} {c : History} {α : Type} {request : Request} {scope : Registration}
variable {current : TaskClaim} {previous : Option TaskClaim} {event : Option JournalEvent}
variable {fence : Option RenewalFence} {now : Int}

theorem execution_ok {executionId : String} {f : AgentRecord → Change α} {r : α × Document}
    (h : (execution executionId >>= f).exec c d = .ok r) : ∃ row, (f row).exec c d = .ok r := by
  unfold execution at h
  rw [exec_bind_assoc] at h
  obtain ⟨row, h⟩ := executionRow_ok h
  cases row
  case none     => simp at h
  case some row => exact ⟨row, by simpa using h⟩

theorem scopeOf_ok {slug : String} {authorized : Except SwarmError Registration}
    {f : Registration → Change α} {r : α × Document}
    (h : (scopeOf slug authorized >>= f).exec c d = .ok r) :
    ∃ scope, authorized = .ok scope ∧ (f scope).exec c d = .ok r := by
  unfold scopeOf at h
  cases authorized
  case error => simp at h
  case ok scope =>
    simp only [exec_bind_assoc, exec_attempt_bind, exec_ensure, guard_ok] at h
    obtain ⟨row, h⟩ := execution_ok h.right
    simp at h
    exact ⟨scope, rfl, h.right.right⟩

-- The journal of a task, empty where there is none.
def journal (d : Document) (task : String) : List JournalEntry :=
  ((d .journals).lookup task).getD []

-- What a commit leaves in the document.
structure Commits (d d' : Document) (current : TaskClaim) (previous : Option TaskClaim)
    (event : Option JournalEvent) (fence : Option RenewalFence) : Prop where
  claims   : d' .claims = .singleton current.taskId current ∪ d .claims
  journals : d' .journals = .singleton current.taskId
    (journal d current.taskId ++ appended current previous event) ∪ d .journals
  fences   : ∀ key, (d' .fences).lookup key = (d .fences).lookup key ∨
    ∃ fence' ∈ fence, fence'.key = key ∧
      ∃ next, advance ((d .fences).lookup key) fence' = .ok next ∧ (d' .fences).lookup key = some next

theorem commit_ok {deadline : Option Int} {r : Unit}
    (h : (commit current previous event deadline fence now).exec c d = .ok (r, d')) :
    Commits d d' current previous event fence ∧
      (event ≠ none ∧ event ≠ some .admitted → ∃ claim ∈ previous, claim.state = .active) := by
  simp only [commit, exec_ensure, guard_ok] at h
  obtain ⟨_, _, hp, h⟩ := h
  refine ⟨?_, fun he => ?_⟩
  case refine_2 =>
    obtain ⟨claim, hc, ha⟩ := Option.any_eq_true .. |>.mp (hp he)
    simp only [decide_eq_true_eq] at ha
    exact ⟨claim, hc, ha.left⟩
  case refine_1 =>
    cases fence
    case none =>
      simp at h
      subst h
      exact ⟨by simp, by simp [journal], fun key => .inl (by simp)⟩
    case some fence =>
      simp at h
      cases ha : advance ((d .fences).lookup fence.key) fence
      case error => simp [ha] at h
      case ok next =>
        simp [ha] at h
        subst h
        refine ⟨by simp, by simp [journal], fun key => ?_⟩
        by_cases hk : key = fence.key
        case pos =>
          subst hk
          exact .inr ⟨fence, rfl, rfl, next, ha, by simp⟩
        case neg => exact .inl (by simp [hk])

-- What the action of an accepted write may make of the claim it found.
inductive Goes (rows : List JournalEntry) : Option TaskClaim → Option JournalEvent → TaskClaim → Prop
  | admitted {previous : Option TaskClaim} {current : TaskClaim}
      (hg : current.generation = previous.elim 1 (·.generation + 1))
      (hx : ∀ entry ∈ rows, entry.claim.executionId ≠ current.executionId)
      (hc : ∀ claim ∈ previous, claim.state ≠ .completed) :
      Goes rows previous (some .admitted) current
  | held {claim current : TaskClaim} {event : JournalEvent} (ha : claim.state = .active) (he : event ≠ .admitted)
      (hg : current.generation = claim.generation) (ht : current.taskId = claim.taskId) :
      Goes rows (some claim) (some event) current
  | replayed {current : TaskClaim} : Goes rows (some current) none current

-- Everything an operation can do to the claims, the journals and the fences.
inductive Effect (d d' : Document) : Prop
  | same (hc : d' .claims = d .claims) (hj : d' .journals = d .journals) (hf : d' .fences = d .fences)
  | commits (current : TaskClaim) (previous : Option TaskClaim) (event : Option JournalEvent)
      (fence : Option RenewalFence) (hd : Commits d d' current previous event fence)
      (hp : (d .claims).lookup current.taskId = previous)
      (hg : Goes (journal d current.taskId) previous event current)

theorem Effect.refl : Effect d d :=
  .same rfl rfl rfl

theorem journalClaim_ok {event : JournalEvent} {found : TaskClaim} {written : Bool}
    (h : (journalClaim request event fence previous found).exec c d = .ok ((current, written), d')) :
    found = current ∧
      if written then
        Commits d d' current previous (some event) fence ∧
          (event ≠ .admitted → ∃ claim ∈ previous, claim.state = .active) ∧
          ¬(previous = some current ∧ fence = none)
      else d' = d ∧ previous = some current := by
  unfold journalClaim at h
  split at h
  case isTrue hs =>
    cases h
    exact ⟨rfl, rfl, hs.left⟩
  case isFalse hs =>
    rw [exec_read] at h
    cases hg : (d .grants).lookup request.scope.grantId
    case none => simp [hg] at h
    case some audit =>
      cases ht : request.timestamp audit.expiresAt
      case error => simp [hg, ht] at h
      case ok deadline =>
        simp only [hg, ht, exec_attempt_bind] at h
        rw [exec_bind] at h
        split at h
        case h_2 => cases h
        case h_1 hc =>
          cases h
          obtain ⟨hc, he⟩ := commit_ok hc
          exact ⟨rfl, hc, fun hn => he ⟨by simp, by simpa using hn⟩, hs⟩

theorem writeClaim_ok {event : JournalEvent} {action : Option TaskClaim → Change TaskClaim}
    {written : Bool} (h : (writeClaim request event action fence).exec c d = .ok ((current, written), d'))
    (ha : ∀ previous current d₁, (action previous).exec c d = .ok (current, d₁) → d₁ = d) :
    ∃ previous, (d .claims).lookup request.scope.taskId = previous ∧
      (action previous).exec c d = .ok (current, d) ∧
      if written then
        Commits d d' current previous (some event) fence ∧
          (event ≠ .admitted → ∃ claim ∈ previous, claim.state = .active) ∧
          ¬(previous = some current ∧ fence = none)
      else d' = d ∧ previous = some current := by
  simp only [writeClaim, exec_attempt_bind] at h
  cases hr : request.required
  case error => simp [hr] at h
  case ok =>
    simp only [hr] at h
    obtain ⟨scope, _, h⟩ := scopeOf_ok h
    simp only [exec_ensure, guard_ok, exec_read] at h
    obtain ⟨_, h⟩ := h
    -- The journal of the claim is only looked at.
    have hj : (action ((d .claims).lookup request.scope.taskId) >>=
        journalClaim request event fence ((d .claims).lookup request.scope.taskId)).exec c d =
          .ok ((current, written), d') := by
      cases hp : (d .claims).lookup request.scope.taskId
      case none       => simpa [hp] using h
      case some claim =>
        simp [hp] at h
        simpa using h.right
    refine ⟨_, rfl, ?_⟩
    rw [exec_bind] at hj
    cases hx : (action ((d .claims).lookup request.scope.taskId)).exec c d
    case error => simp [hx] at hj
    case ok r =>
      obtain ⟨found, d₁⟩ := r
      obtain rfl := ha _ _ _ hx
      simp only [hx] at hj
      obtain ⟨rfl, hw⟩ := journalClaim_ok hj
      exact ⟨rfl, hw⟩

theorem identity_ok {generation : Int} {claim : TaskClaim}
    (h : identity scope generation previous = .ok claim) :
    previous = some claim ∧ Identified scope generation claim := by
  unfold identity at h
  split at h
  case isTrue => cases h
  case isFalse =>
    cases previous
    case none => cases h
    case some found =>
      simp at h
      exact ⟨by rw [h.right], h.right ▸ h.left⟩

theorem holder_ok {generation : Int} {claim : TaskClaim}
    (h : holder scope generation previous now = .ok claim) :
    previous = some claim ∧ claim.state = .active ∧ Identified scope generation claim := by
  unfold holder at h
  split at h
  case h_1 => cases h
  case h_2 found heq =>
    obtain ⟨hp, hi⟩ := identity_ok heq
    rw [guard_ok] at h
    obtain ⟨ha, he⟩ := h
    cases he
    exact ⟨hp, ha.left, hi⟩

theorem create_ok {leaseMs : Int} {d₁ : Document}
    (h : (create request leaseMs previous).exec c d = .ok (current, d₁)) :
    d₁ = d ∧ (previous = some current ∨
      current.taskId = request.scope.taskId ∧
        Goes (journal d request.scope.taskId) previous (some .admitted) current) := by
  unfold create at h
  split at h
  case h_1 claim heq =>
    rw [exec_ite] at h
    split at h
    case isTrue =>
      cases h
      exact ⟨rfl, .inl (Option.filter_eq_some_iff.mp heq).left⟩
    case isFalse => cases h
  case h_2 =>
    simp only [exec_read, exec_ensure, guard_ok] at h
    obtain ⟨_, hx, h⟩ := h
    obtain ⟨row, h⟩ := execution_ok h
    simp only [exec_ensure, guard_ok] at h
    obtain ⟨_, hc, h⟩ := h
    cases h
    refine ⟨rfl, .inr ⟨rfl, .admitted rfl hx fun claim hm => ?_⟩⟩
    rw [Option.mem_def] at hm
    simpa [hm] using hc

section Effects

-- Every claim is filed under its own task.
variable (ho : ∀ {task claim}, (d .claims).lookup task = some claim → claim.taskId = task)
include ho

theorem effect_admit {leaseMs : Int} {r : TaskClaim × Bool}
    (h : (admitClaim request leaseMs).exec c d = .ok (r, d')) : Effect d d' := by
  obtain ⟨current, written⟩ := r
  simp only [admitClaim, exec_ensure, guard_ok] at h
  obtain ⟨previous, hp, hx, hw⟩ := writeClaim_ok h.right fun _ _ _ hx => (create_ok hx).left
  cases written
  case false =>
    obtain rfl : d' = d := hw.left
    exact .refl
  case true =>
    rcases (create_ok hx).right with rfl | ⟨ht, hg⟩
    -- A claim that is still held is returned as it is, so nothing is committed for it.
    case inl => exact absurd ⟨rfl, rfl⟩ hw.right.right
    case inr => exact .commits current previous _ _ hw.left (ht ▸ hp) (ht ▸ hg)

theorem effect_held {event : JournalEvent} (he : event ≠ .admitted)
    {action : Option TaskClaim → Change TaskClaim} {r : TaskClaim × Bool}
    (h : (writeClaim request event action fence).exec c d = .ok (r, d'))
    (ha : ∀ previous current d₁, (action previous).exec c d = .ok (current, d₁) → d₁ = d ∧
      ∃ claim ∈ previous, current.generation = claim.generation ∧ current.taskId = claim.taskId) :
    Effect d d' := by
  obtain ⟨current, written⟩ := r
  obtain ⟨previous, hp, hx, hw⟩ := writeClaim_ok h fun _ _ _ hx => (ha _ _ _ hx).left
  cases written
  case false =>
    obtain rfl : d' = d := hw.left
    exact .refl
  case true =>
    obtain ⟨_, claim, hm, hg, ht⟩ := ha _ _ _ hx
    obtain ⟨hd, hactive, _⟩ := hw
    obtain ⟨claim', hm', hs⟩ := hactive he
    obtain rfl := Option.some.inj (hm.symm.trans hm')
    rw [Option.mem_def] at hm
    subst hm
    have hk := ht.trans (ho hp)
    exact .commits current _ _ _ hd (hk ▸ hp) (.held hs he hg ht)

omit ho in
theorem identity_action {generation : Int} {f : TaskClaim → Change TaskClaim}
    (hf : ∀ claim d₁, (f claim).exec c d = .ok (current, d₁) → d₁ = d ∧
      current.generation = claim.generation ∧ current.taskId = claim.taskId) {d₁ : Document}
    (h : (Program.attempt (identity scope generation previous) >>= f).exec c d = .ok (current, d₁)) :
    d₁ = d ∧ ∃ claim ∈ previous, current.generation = claim.generation ∧ current.taskId = claim.taskId := by
  rw [exec_attempt_bind] at h
  split at h
  case h_2 => cases h
  case h_1 claim heq =>
    obtain ⟨hd, hg, ht⟩ := hf claim d₁ h
    exact ⟨hd, claim, (identity_ok heq).left, hg, ht⟩

omit ho in
theorem holder_action {generation : Int} {f : TaskClaim → Change TaskClaim}
    (hf : ∀ claim d₁, (f claim).exec c d = .ok (current, d₁) → d₁ = d ∧
      current.generation = claim.generation ∧ current.taskId = claim.taskId) {d₁ : Document}
    (h : (Program.attempt (holder scope generation previous now) >>= f).exec c d = .ok (current, d₁)) :
    d₁ = d ∧ ∃ claim ∈ previous, current.generation = claim.generation ∧ current.taskId = claim.taskId := by
  rw [exec_attempt_bind] at h
  split at h
  case h_2 => cases h
  case h_1 claim heq =>
    obtain ⟨hd, hg, ht⟩ := hf claim d₁ h
    exact ⟨hd, claim, (holder_ok heq).left, hg, ht⟩

theorem effect_renew {generation leaseMs : Int} {r : TaskClaim × Bool}
    (h : (renew request generation leaseMs fence).exec c d = .ok (r, d')) : Effect d d' := by
  simp only [renew, exec_ensure, guard_ok] at h
  refine effect_held ho (by decide) h.right fun previous current d₁ hx =>
    holder_action (fun claim d₁ hc => ?_) hx
  cases hc
  exact ⟨rfl, rfl, rfl⟩

theorem effect_release {generation : Int} {r : TaskClaim × Bool}
    (h : (release request generation).exec c d = .ok (r, d')) : Effect d d' := by
  refine effect_held ho (by decide) h fun previous current d₁ hx =>
    holder_action (fun claim d₁ hc => ?_) hx
  cases hc
  exact ⟨rfl, rfl, rfl⟩

theorem effect_complete {generation : Int} {result : Json} {r : TaskClaim × Bool}
    (h : (complete request generation result).exec c d = .ok (r, d')) : Effect d d' := by
  refine effect_held ho (by decide) h fun previous current d₁ hx => ?_
  split at hx
  case isTrue =>
    refine identity_action (fun claim d₁ hc => ?_) hx
    simp only [exec_ensure, guard_ok] at hc
    obtain ⟨_, hc⟩ := hc
    cases hc
    exact ⟨rfl, rfl, rfl⟩
  case isFalse =>
    refine holder_action (fun claim d₁ hc => ?_) hx
    cases hc
    exact ⟨rfl, rfl, rfl⟩

-- A replay finds the claim the journal leads to, and where the two agree it changes nothing.
theorem effect_replay {task : String} {r : Option TaskClaim}
    (hr : reconstruct (journal d task) = .ok ((d .claims).lookup task))
    (h : (replay request task).exec c d = .ok (r, d')) :
    Effect d d' ∧ r = (d .claims).lookup task := by
  simp only [replay, exec_attempt_bind] at h
  cases hq : request.required
  case error => simp [hq] at h
  case ok =>
    simp only [hq, exec_read] at h
    rw [show ((d .journals).lookup task).getD [] = journal d task from rfl, hr] at h
    simp only [exec_attempt_bind, exec_read, exec_ensure, guard_ok] at h
    obtain ⟨_, h⟩ := h
    cases hp : (d .claims).lookup task
    case none =>
      simp [hp] at h
      obtain ⟨rfl, rfl⟩ := h
      exact ⟨.refl, rfl⟩
    case some claim =>
      simp only [hp] at h
      rw [exec_bind] at h
      split at h
      case h_2 => cases h
      case h_1 hc =>
        cases h
        obtain ⟨hd, _⟩ := commit_ok hc
        exact ⟨.commits claim (some claim) none none ⟨hd.1, hd.2, hd.3⟩ (ho hp ▸ hp) .replayed, rfl⟩

end Effects
end Authority
