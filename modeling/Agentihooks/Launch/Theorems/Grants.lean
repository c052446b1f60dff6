import Agentihooks.Launch.Theorems.Changes

-- The audit row of a grant only moves forward, and what is revoked stays so for every call made after it.

namespace Launch

open Program Fencing Execution

variable {authority : LaunchAuthority} {slug : String} {uuid4 : Supply} {s s' : System} {e : Event}
variable {i p q : ℕ} {now : Int} {task : Task} {d d' origin : Document} {t : WriteAttempt Unit} {stage : Stage}

-- What was revoked is still revoked.
def Later (d d' : Document) : Prop :=
  ∀ grantId, stateOf d grantId = some .revoked → stateOf d' grantId = some .revoked

theorem Later.refl : Later d d :=
  fun _ h => h

theorem Later.of_moves (h : ∀ grantId, Moves (stateOf d grantId) (stateOf d' grantId)) : Later d d' := by
  intro grantId hr
  have hm := h grantId
  rw [hr] at hm
  generalize stateOf d' grantId = state at hm
  cases hm
  rfl

theorem Later.trans {d'' : Document} (h : Later d d') (h' : Later d' d'') : Later d d'' :=
  fun grantId hr => h' grantId (h grantId hr)

namespace Stage

def since : Stage → Option Document
  | .idle => none
  | .called _ since | .bounding _ _ since _ | .ready _ since | .attempted _ since _ => some since

-- The document that a call under way has read.
def seen : Stage → Option Document
  | .bounding _ _ _ seen => some seen
  | .attempted _ _ t     => some t.loaded
  | _                    => none

-- The grant that a call is about to record.
def recording : Stage → Option (String × Grant)
  | .ready (.record _ grantId audit) _ | .attempted (.record _ grantId audit) _ _ => some (grantId, audit)
  | _                                                                             => none

end Stage

-- The stages that a step leads to, with `drawn` identifiers drawn by then.
inductive Enters (authority : LaunchAuthority) (uuid4 : Supply) (s : System) (drawn : ℕ) : Stage → Stage → Prop
  | idle stage : Enters authority uuid4 s drawn stage .idle
  | stay stage : Enters authority uuid4 s drawn stage stage
  | called call : Enters authority uuid4 s drawn .idle (.called call s.swarm.document)
  | bounding call claims renewing origin :
    Enters authority uuid4 s drawn (.called call origin) (.bounding claims renewing origin s.swarm.document)
  | recording {audit : Grant} call execution origin (ha : audit.state = .issued) (hd : drawn = s.drawn + 1) :
    Enters authority uuid4 s drawn (.called call origin)
      (.ready (.record execution ("lgr-" ++ uuid4.hex s.drawn) audit) origin)
  | ready {task : Task} {stage : Stage} {origin : Document} (ho : stage.since = some origin)
    (hr : (Stage.ready task origin).recording = none) : Enters authority uuid4 s drawn stage (.ready task origin)
  | attempted task origin now : Enters authority uuid4 s drawn (.ready task origin)
    (.attempted task origin (s.swarm.start (task.write authority now)))
  | hydrated task origin t : Enters authority uuid4 s drawn (.attempted task origin t)
    (.attempted task origin (t.hydrate s.swarm.store))
  | again task origin t : Enters authority uuid4 s drawn (.attempted task origin t) (.ready task origin)

-- The calls that succeed by a step of `i`.
inductive Succeeds (s : System) (i : ℕ) : Success → Prop
  | verify {claims : LaunchClaims} {origin : Document} {audit : Grant}
    (hs : (s.stages i).since = some origin) (h : verifies s.swarm.document claims = .ok audit) :
    Succeeds s i ⟨.verify, claims, origin, s.swarm.document⟩
  | bound {claims : LaunchClaims} {origin seen : Document} {found : Option Registration}
    (hs : (s.stages i).since = some origin) (hseen : (s.stages i).seen = some seen)
    {registration : Registration} (h : boundBy claims seen found = .ok registration) :
    Succeeds s i ⟨.bound, claims, origin, seen⟩
  | task {task : Task} {claims : LaunchClaims} {origin after : Document} {t : WriteAttempt Unit} {operation : Operation}
    (hs : s.stages i = .attempted task origin t) (hx : t.write.change.exec t.history t.loaded = .ok ((), after))
    (ht : task = .register claims ∧ operation = .register ∨
      ∃ expiresAt, task = .extend claims expiresAt ∧ operation = .renew) :
    Succeeds s i ⟨operation, claims, origin, t.loaded⟩

-- The caller of an event.
def Event.caller : Event → ℕ
  | .call caller _ | .step caller _ | .hydrate caller | .stop caller => caller

-- What a step of `i` does.
structure Steps (authority : LaunchAuthority) (uuid4 : Supply) (s : System) (i : ℕ) (s' : System) : Prop where
  others    : ∀ q ≠ i, s'.stages q = s.stages q
  enters    : Enters authority uuid4 s s'.drawn (s.stages i) (s'.stages i)
  drawn     : s.drawn ≤ s'.drawn
  swarm     : s'.swarm = s.swarm ∨ s'.stages i = .idle ∧ ∃ task origin t now r, s.stages i = .attempted task origin t ∧
    s.swarm.commit t now = .committed r s'.swarm
  successes : ∀ success ∈ s'.successes, success ∈ s.successes ∨ Succeeds s i success

namespace Steps

theorem refl : Steps authority uuid4 s i s where
  others _ _     := rfl
  enters         := .stay _
  drawn          := le_rfl
  swarm          := .inl rfl
  successes _ hx := .inl hx

theorem leave {drawn : ℕ} (h : Enters authority uuid4 s drawn (s.stages i) stage) (hd : s.drawn ≤ drawn) :
    Steps authority uuid4 s i ({ s with drawn := drawn }.leave i stage) where
  others q hne   := Function.update_of_ne hne _ _
  enters         := by simpa [System.leave] using h
  drawn          := hd
  swarm          := .inl rfl
  successes _ hx := .inl hx

theorem succeed {success : Success} (h : Succeeds s i success) :
    Steps authority uuid4 s i (s.succeed i success) where
  others q hne   := Function.update_of_ne hne _ _
  enters         := by simpa [System.succeed, System.leave] using .idle _
  drawn          := le_rfl
  swarm          := .inl rfl
  successes x hx := by
    obtain hx | hx := List.mem_append.mp hx
    case inl => exact .inl hx
    case inr => exact .inr (List.mem_singleton.mp hx ▸ h)

-- A write that ends, on the swarm it leaves.
theorem finish {swarm : Swarm} {after : Document} (hs : s.stages i = .attempted task origin t)
    (hw : swarm = s.swarm ∨ ∃ now r, s.swarm.commit t now = .committed r swarm)
    (hx : t.write.change.exec t.history t.loaded = .ok ((), after)) :
    Steps authority uuid4 s i ({ s with swarm := swarm }.finish i origin t.loaded task) := by
  have hswarm {stages : ℕ → Stage} : swarm = s.swarm ∨ Function.update stages i .idle i = .idle ∧
      ∃ task origin t now r, s.stages i = .attempted task origin t ∧ s.swarm.commit t now = .committed r swarm := by
    obtain hw | ⟨now, r, hw⟩ := hw
    case inl => exact .inl hw
    case inr => exact .inr ⟨Function.update_self .., task, origin, t, now, r, hs, hw⟩
  have hidle : Steps authority uuid4 s i ({ s with swarm := swarm }.leave i .idle) := {
    others q hne   := Function.update_of_ne hne _ _
    enters         := by simpa [System.leave] using .idle _
    drawn          := le_rfl
    swarm          := hswarm
    successes _ hx := .inl hx }
  have hsucceed {success : Success} (hsu : Succeeds s i success) :
      Steps authority uuid4 s i ({ s with swarm := swarm }.succeed i success) := {
    others q hne   := Function.update_of_ne hne _ _
    enters         := by simpa [System.succeed, System.leave] using .idle _
    drawn          := le_rfl
    swarm          := hswarm
    successes x hx := by
      obtain hx | hx := List.mem_append.mp hx
      case inl => exact .inl hx
      case inr => exact .inr (List.mem_singleton.mp hx ▸ hsu) }
  cases task
  case register claims => exact hsucceed (.task hs hx (.inl ⟨rfl, rfl⟩))
  case extend claims _ => exact hsucceed (.task hs hx (.inr ⟨_, rfl, rfl⟩))
  all_goals exact hidle

theorem enter {call : Call} (hs : s.stages i = .called call origin) :
    Steps authority uuid4 s i (s.enter authority slug uuid4 i now origin call) := by
  have ho : (s.stages i).since = some origin := by
    rw [hs]
    rfl
  cases call
  case issue executionId terms =>
    simp only [System.enter]
    split
    case h_1 => exact leave (.idle _) (Nat.le_succ _)
    case h_2 =>
      split
      case h_1 => exact leave (.idle _) (Nat.le_succ _)
      case h_2 => exact leave (hs ▸ .recording _ _ _ rfl rfl) (Nat.le_succ _)
  case register claims body =>
    simp only [System.enter]
    split
    case h_1 => exact leave (.ready ho rfl) le_rfl
    case h_2 => exact leave (.idle _) le_rfl
  case verify claims =>
    simp only [System.enter]
    split
    case h_1 hv => exact succeed (.verify ho hv)
    case h_2    => exact leave (.idle _) le_rfl
  case bound claims =>
    simp only [System.enter]
    split
    case h_1 => exact leave (hs ▸ .bounding _ _ _ _) le_rfl
    case h_2 => exact leave (.idle _) le_rfl
  case renew claims =>
    simp only [System.enter]
    split
    case h_1 => exact leave (hs ▸ .bounding _ _ _ _) le_rfl
    case h_2 => exact leave (.idle _) le_rfl
  case revoke executionId =>
    simp only [System.enter]
    split
    case h_1 => exact leave (.ready ho rfl) le_rfl
    case h_2 => exact leave (.idle _) le_rfl
  case withdraw claims =>
    simp only [System.enter]
    split
    case h_1 => exact leave (.ready ho rfl) le_rfl
    case h_2 => exact leave (.idle _) le_rfl
  all_goals exact leave (.ready ho rfl) le_rfl

theorem step : Steps authority uuid4 s e.caller (s.step authority slug uuid4 e) := by
  cases e
  case call caller call =>
    simp only [System.step]
    split
    case h_1 hs => exact leave (hs ▸ .called _) le_rfl
    case h_2    => exact refl
  case hydrate caller =>
    simp only [System.step]
    split
    case h_1 hs => exact leave (hs ▸ .hydrated _ _ _) le_rfl
    case h_2    => exact refl
  case stop caller => exact leave (.idle _) le_rfl
  case step caller now =>
    simp only [System.step]
    cases hs : s.stages caller
    case idle => exact refl
    case called call origin => exact enter hs
    case ready task origin => exact leave (hs ▸ .attempted _ _ _) le_rfl
    case bounding claims renewing origin seen =>
      have ho : (s.stages caller).since = some origin := by
        rw [hs]
        rfl
      simp only [System.advance]
      split
      case h_1 => exact leave (.idle _) le_rfl
      case h_2 hb =>
        split
        case isTrue  => exact leave (.ready ho rfl) le_rfl
        case isFalse => exact succeed (.bound ho (show (s.stages caller).seen = _ by rw [hs]; rfl) hb)
    case attempted task origin t =>
      simp only [System.advance]
      split
      case h_1 => exact leave (.idle _) le_rfl
      case h_2 r hc =>
        obtain ⟨after, hx, -⟩ := WriteAttempt.exec_of_returned hc
        exact finish hs (.inl rfl) hx
      case h_3 => exact leave (.idle _) le_rfl
      case h_4 => exact leave (hs ▸ .again _ _ _) le_rfl
      case h_5 r swarm hc =>
        obtain ⟨after, hx⟩ := WriteAttempt.exec_of_committed hc
        exact finish hs (.inr ⟨now, r, hc⟩) hx

end Steps

namespace Effect

variable {after : Document} {grantId : String} (h : Effect d task after)
include h

-- Only an issue adds a grant.
theorem absent (hn : stateOf d grantId = none) : stateOf after grantId = none ∨
    ∃ execution audit, task = .record execution grantId audit := by
  cases h
  case record execution grantId' audit =>
    rw [stateOf_put]
    split
    case isTrue heq => exact .inr ⟨execution, audit, by rw [heq]⟩
    case isFalse    => exact .inl hn
  case register claims audit registration found _ _ _ =>
    rw [stateOf_put]
    split
    case isTrue heq =>
      subst heq
      simp [stateOf, found] at hn
    case isFalse =>
      rw [stateOf, Sections.put_other (by simp)]
      exact .inl hn
  case extend claims audit _ extended found _ _ =>
    rw [stateOf_put]
    split
    case isTrue heq =>
      subst heq
      simp [stateOf, found] at hn
    case isFalse => exact .inl hn
  case revoke audit found _ =>
    rw [stateOf_put]
    split
    case isTrue heq =>
      subst heq
      simp [stateOf, found] at hn
    case isFalse => exact .inl hn
  case disable =>
    rw [stateOf_disable, hn]
    exact .inl rfl
  case other grants _ =>
    rw [stateOf, grants]
    exact .inl hn
  all_goals exact .inl hn

omit h in
-- A `register` or a `renew` that comes through found its grant, and found it not revoked.
theorem succeeds {claims : LaunchClaims} {operation : Operation} (h : Effect d task after)
    (ht : task = .register claims ∧ operation = .register ∨
      ∃ expiresAt, task = .extend claims expiresAt ∧ operation = .renew) :
    stateOf d claims.grantId ≠ some .revoked ∧ (operation = .register ∨ operation = .bound →
      Current (d .executions) claims.executionId claims.generation) := by
  obtain ⟨rfl, rfl⟩ | ⟨expiresAt, rfl, rfl⟩ := ht
  case inl =>
    cases h
    case registered found live current => exact ⟨by simp [stateOf, found, live], fun _ => current⟩
    case register found live current _ => exact ⟨by simp [stateOf, found, live], fun _ => current⟩
    case other hr _ _ _                => exact (hr claims rfl).elim
  case inr =>
    cases h
    case extend live _ found => exact ⟨by simp [stateOf, found, live], by simp⟩
    case other he _ _        => exact (he claims expiresAt rfl).elim

end Effect

theorem boundBy_ok {claims : LaunchClaims} {seen : Document} {found : Option Registration} {registration : Registration}
    (h : boundBy claims seen found = .ok registration) : ∃ audit, (seen .grants).lookup claims.grantId = some audit ∧
      audit.state ≠ .revoked ∧ Current (seen .executions) claims.executionId claims.generation := by
  cases found
  case none => cases h
  case some found =>
    simp only [boundBy] at h
    split at h
    case isTrue => cases h
    case isFalse hg =>
      split at h
      case h_1 => cases h
      case h_2 audit ha =>
        split at h
        case isTrue => cases h
        case isFalse hl =>
          split at h
          case isTrue hc => exact ⟨audit, by rwa [not_not.mp hg] at ha, hl, hc⟩
          case isFalse   => cases h

structure Sound (authority : LaunchAuthority) (uuid4 : Supply) (s : System) : Prop where
  taken    : ∀ p task origin t, s.stages p = .attempted task origin t →
    t.Taken s.swarm ∧ ∃ now, t.write = task.write authority now
  later    : ∀ p origin, (s.stages p).since = some origin → Later origin s.swarm.document ∧
    ∀ seen, (s.stages p).seen = some seen → Later origin seen
  unused   : ∀ n, s.drawn ≤ n → stateOf s.swarm.document ("lgr-" ++ uuid4.hex n) = none
  recorded : ∀ p grantId audit, (s.stages p).recording = some (grantId, audit) → audit.state = .issued ∧
    stateOf s.swarm.document grantId = none ∧ ∃ n < s.drawn, grantId = "lgr-" ++ uuid4.hex n
  distinct : ∀ p q grantId audit audit', (s.stages p).recording = some (grantId, audit) →
    (s.stages q).recording = some (grantId, audit') → p = q
  good     : ∀ success ∈ s.successes, success.Good

namespace Sound

variable {swarm' : Swarm} {r : Unit} {grantId id : String} {registration : Registration}

-- A commit, by what its change made of what it loaded.
theorem commit (h : Sound authority uuid4 s) (hs : s.stages i = .attempted task origin t)
    (hc : s.swarm.commit t now = .committed r swarm') :
    ∃ after, Effect t.loaded task after ∧ WriteAttempt.Merges t.loaded after s.swarm.document swarm'.document := by
  obtain ⟨ht, now', hw⟩ := h.taken i task origin t hs
  obtain ⟨after, hx, hm⟩ := WriteAttempt.commit_merges ht hc
  rw [hw] at hx
  exact ⟨after, effect_task hx, hm⟩

theorem stateOf_eq : stateOf d grantId = (d.fetch ⟨.grants, grantId⟩).map (·.state) :=
  rfl

theorem moves_commit (h : Sound authority uuid4 s) (hs : s.stages i = .attempted task origin t)
    (hc : s.swarm.commit t now = .committed r swarm') :
    Moves (stateOf s.swarm.document grantId) (stateOf swarm'.document grantId) := by
  obtain ⟨after, he, hm⟩ := h.commit hs hc
  by_cases hk : t.loaded.fetch ⟨.grants, grantId⟩ = after.fetch ⟨.grants, grantId⟩
  case pos =>
    rw [stateOf_eq, stateOf_eq, hm.kept (s := .grants) trivial hk]
    exact .same _
  case neg =>
    obtain ⟨hd, hd'⟩ := hm.written (s := .grants) trivial hk
    rw [stateOf_eq, stateOf_eq, hd, hd', ← stateOf_eq, ← stateOf_eq]
    apply he.moves
    intro execution audit ht
    subst ht
    obtain ⟨hi, hn, _⟩ := h.recorded i grantId audit (by rw [hs]; rfl)
    rw [stateOf_eq, hd, ← stateOf_eq] at hn
    exact ⟨hn, hi⟩

theorem registered_commit (h : Sound authority uuid4 s) (hs : s.stages i = .attempted task origin t)
    (hc : s.swarm.commit t now = .committed r swarm')
    (hr : (s.swarm.document .registrations).lookup id = some registration) :
    (swarm'.document .registrations).lookup id = some registration := by
  obtain ⟨after, he, hm⟩ := h.commit hs hc
  by_cases hk : t.loaded.fetch ⟨.registrations, id⟩ = after.fetch ⟨.registrations, id⟩
  case pos => exact (hm.kept (s := .registrations) trivial hk).trans hr
  case neg =>
    obtain ⟨hd, hd'⟩ := hm.written (s := .registrations) trivial hk
    exact hd'.trans (he.registrations (hd.symm.trans hr))

-- A grant that is not there comes with the commit that records it.
theorem absent_commit (h : Sound authority uuid4 s) (hs : s.stages i = .attempted task origin t)
    (hc : s.swarm.commit t now = .committed r swarm') (hn : stateOf s.swarm.document grantId = none) :
    stateOf swarm'.document grantId = none ∨ ∃ audit, (s.stages i).recording = some (grantId, audit) := by
  obtain ⟨after, he, hm⟩ := h.commit hs hc
  by_cases hk : t.loaded.fetch ⟨.grants, grantId⟩ = after.fetch ⟨.grants, grantId⟩
  case pos =>
    rw [stateOf_eq, hm.kept (s := .grants) trivial hk]
    exact .inl hn
  case neg =>
    obtain ⟨hd, hd'⟩ := hm.written (s := .grants) trivial hk
    rw [stateOf_eq, hd, ← stateOf_eq] at hn
    rw [stateOf_eq, hd', ← stateOf_eq]
    obtain ha | ⟨execution, audit, rfl⟩ := he.absent hn
    case inl => exact .inl ha
    case inr => exact .inr ⟨audit, by rw [hs]; rfl⟩

section Steps

variable (h : Sound authority uuid4 s) (hs : Steps authority uuid4 s i s')
include h hs

theorem step_moves : Moves (stateOf s.swarm.document grantId) (stateOf s'.swarm.document grantId) := by
  obtain hw | ⟨-, task, origin, t, now, r, ht, hc⟩ := hs.swarm
  case inl =>
    rw [hw]
    exact .same _
  case inr => exact h.moves_commit ht hc

theorem step_registered (hr : (s.swarm.document .registrations).lookup id = some registration) :
    (s'.swarm.document .registrations).lookup id = some registration := by
  obtain hw | ⟨-, task, origin, t, now, r, ht, hc⟩ := hs.swarm
  case inl => exact hw ▸ hr
  case inr => exact h.registered_commit ht hc hr

theorem step_later : Later s.swarm.document s'.swarm.document :=
  .of_moves fun _ => h.step_moves hs

theorem step_taken (p : ℕ) (task : Task) (origin : Document) (t : WriteAttempt Unit)
    (hp : s'.stages p = .attempted task origin t) :
    t.Taken s'.swarm ∧ ∃ now, t.write = task.write authority now := by
  -- A commit of the step is one of another caller, after which this one is idle.
  have hold {t : WriteAttempt Unit} (ht : t.Taken s.swarm) : t.Taken s'.swarm := by
    obtain hw | ⟨-, task, origin, t', now, r, hi, hc⟩ := hs.swarm
    case inl => exact hw ▸ ht
    case inr => exact ht.commit (h.taken i task origin t' hi).left hc
  by_cases hne : p = i
  case neg =>
    rw [hs.others p hne] at hp
    obtain ⟨ht, hw⟩ := h.taken p task origin t hp
    exact ⟨hold ht, hw⟩
  case pos =>
    subst hne
    have he := hs.enters
    generalize hst : s.stages p = stage at he
    rw [hp] at he
    cases he
    case stay =>
      obtain ⟨ht, hw⟩ := h.taken p task origin t hst
      exact ⟨hold ht, hw⟩
    case attempted now => exact ⟨hold .start, now, by rw [Swarm.start]; split <;> rfl⟩
    case hydrated t =>
      obtain ⟨ht, hw⟩ := h.taken p task origin t hst
      refine ⟨hold ht.hydrate, ?_⟩
      cases t <;> exact hw

theorem step_since (p : ℕ) (origin : Document) (hp : (s'.stages p).since = some origin) :
    Later origin s'.swarm.document ∧ ∀ seen, (s'.stages p).seen = some seen → Later origin seen := by
  have hold (ho : Later origin s.swarm.document) : Later origin s'.swarm.document :=
    ho.trans (h.step_later hs)
  by_cases hne : p = i
  case neg =>
    rw [hs.others p hne] at hp ⊢
    obtain ⟨hl, hseen⟩ := h.later p origin hp
    exact ⟨hold hl, hseen⟩
  case pos =>
    subst hne
    have he := hs.enters
    generalize hst : s.stages p = stage at he
    generalize s'.stages p = stage' at he hp ⊢
    have hl (ho : stage.since = some origin) := h.later p origin (hst ▸ ho)
    cases he
    case idle => cases hp
    case stay =>
      obtain ⟨hl, hseen⟩ := hl hp
      exact ⟨hold hl, hst ▸ hseen⟩
    case called =>
      cases hp
      exact ⟨hold .refl, fun seen hseen => by cases hseen⟩
    case bounding =>
      refine ⟨hold (hl hp).left, ?_⟩
      rintro seen ⟨⟩
      exact (hl hp).left
    case recording => exact ⟨hold (hl hp).left, fun seen hseen => by cases hseen⟩
    case ready _ ho =>
      cases hp
      exact ⟨hold (hl ho).left, fun seen hseen => by cases hseen⟩
    case again => exact ⟨hold (hl hp).left, fun seen hseen => by cases hseen⟩
    case attempted task origin' now =>
      refine ⟨hold (hl hp).left, ?_⟩
      rintro seen ⟨⟩
      rw [WriteAttempt.loaded_start]
      exact (hl hp).left
    case hydrated t =>
      refine ⟨hold (hl hp).left, ?_⟩
      rintro seen ⟨⟩
      rw [WriteAttempt.loaded_hydrate]
      exact (hl hp).right _ (by rw [hst]; rfl)

omit h in
-- A grant that a caller records after the step was the caller's before it, or has the identifier drawn by it.
theorem recording_step {audit : Grant} (hp : (s'.stages p).recording = some (grantId, audit)) :
    ((s.stages p).recording = some (grantId, audit) ∧ (p = i → s'.swarm = s.swarm)) ∨
      p = i ∧ s'.swarm = s.swarm ∧ s'.drawn = s.drawn + 1 ∧ grantId = "lgr-" ++ uuid4.hex s.drawn ∧
        audit.state = .issued := by
  by_cases hne : p = i
  case neg =>
    rw [hs.others p hne] at hp
    exact .inl ⟨hp, fun he => (hne he).elim⟩
  case pos =>
    subst hne
    have hw : s'.swarm = s.swarm := by
      obtain hw | ⟨hidle, -⟩ := hs.swarm
      case inl => exact hw
      case inr =>
        rw [hidle] at hp
        cases hp
    have he := hs.enters
    generalize s.stages p = stage at he ⊢
    generalize s'.stages p = stage' at he hp
    cases he
    case idle                  => cases hp
    case stay                  => exact .inl ⟨hp, fun _ => hw⟩
    case called                => cases hp
    case bounding              => cases hp
    case recording ha hd =>
      cases hp
      exact .inr ⟨rfl, hw, hd, rfl, ha⟩
    case ready hr _            => cases hr.symm.trans hp
    case attempted task _ now  => cases task <;> exact .inl ⟨hp, fun _ => hw⟩
    case hydrated task _ t     => cases task <;> exact .inl ⟨hp, fun _ => hw⟩
    case again task _ t        => cases task <;> exact .inl ⟨hp, fun _ => hw⟩

theorem step_unused (n : ℕ) (hn : s'.drawn ≤ n) : stateOf s'.swarm.document ("lgr-" ++ uuid4.hex n) = none := by
  have hold := h.unused n (hs.drawn.trans hn)
  obtain hw | ⟨-, task, origin, t, now, r, hi, hc⟩ := hs.swarm
  case inl => rwa [hw]
  case inr =>
    obtain ha | ⟨audit, hr⟩ := h.absent_commit hi hc hold
    case inl => exact ha
    case inr =>
      obtain ⟨-, -, m, hm, he⟩ := h.recorded i _ audit hr
      have hmn := uuid4.fresh (String.append_right_inj _ |>.mp he)
      have hle := hs.drawn.trans hn
      omega

theorem step_recorded (p : ℕ) (grantId : String) (audit : Grant)
    (hp : (s'.stages p).recording = some (grantId, audit)) : audit.state = .issued ∧
      stateOf s'.swarm.document grantId = none ∧ ∃ n < s'.drawn, grantId = "lgr-" ++ uuid4.hex n := by
  obtain ⟨hr, hw⟩ | ⟨rfl, hw, hd, rfl, ha⟩ := recording_step hs hp
  case inl =>
    obtain ⟨ha, hn, n, hlt, he⟩ := h.recorded p grantId audit hr
    refine ⟨ha, ?_, n, hlt.trans_le hs.drawn, he⟩
    obtain hw' | ⟨-, task, origin, t, now, r, hi, hc⟩ := hs.swarm
    case inl => rwa [hw']
    case inr =>
      obtain hn' | ⟨audit', hr'⟩ := h.absent_commit hi hc hn
      case inl => exact hn'
      case inr => rwa [hw (h.distinct p i grantId audit audit' hr hr')]
  case inr =>
    rw [hw]
    exact ⟨ha, h.unused _ le_rfl, _, by omega, rfl⟩

theorem step_distinct (p q : ℕ) (grantId : String) (audit audit' : Grant)
    (hp : (s'.stages p).recording = some (grantId, audit)) (hq : (s'.stages q).recording = some (grantId, audit')) :
    p = q := by
  -- The identifier drawn by the step is not one that was drawn before.
  have hnot {p : ℕ} {audit : Grant} : (s.stages p).recording ≠ some ("lgr-" ++ uuid4.hex s.drawn, audit) := by
    intro hr
    obtain ⟨-, -, n, hlt, he⟩ := h.recorded p _ audit hr
    have hn := uuid4.fresh (String.append_right_inj _ |>.mp he)
    omega
  obtain ⟨hp, -⟩ | ⟨rfl, -, -, rfl, -⟩ := recording_step hs hp
  case inl =>
    obtain ⟨hq, -⟩ | ⟨-, -, -, rfl, -⟩ := recording_step hs hq
    case inl => exact h.distinct p q grantId audit audit' hp hq
    case inr => exact (hnot hp).elim
  case inr =>
    obtain ⟨hq, -⟩ | ⟨rfl, -⟩ := recording_step hs hq
    case inl => exact (hnot hq).elim
    case inr => rfl

theorem step_good (success : Success) (hx : success ∈ s'.successes) : success.Good := by
  obtain hx | hsu := hs.successes success hx
  case inl => exact h.good success hx
  case inr =>
    clear hx
    cases hsu
    case verify claims origin audit hor hv =>
      obtain ⟨hf, hl⟩ := issued_ok hv
      have hseen : stateOf s.swarm.document claims.grantId ≠ some .revoked := by simp [stateOf, hf, hl]
      exact ⟨fun hr => hseen ((h.later i origin hor).left _ hr), hseen, by simp⟩
    case bound claims origin seen found hor hsn registration hb =>
      obtain ⟨audit, hf, hl, hc⟩ := boundBy_ok hb
      have hseen : stateOf seen claims.grantId ≠ some .revoked := by simp [stateOf, hf, hl]
      exact ⟨fun hr => hseen ((h.later i origin hor).right seen hsn _ hr), hseen, fun _ => hc⟩
    case task task claims origin after t operation hst hx ht =>
      obtain ⟨-, now, hw⟩ := h.taken i task origin t hst
      rw [hw] at hx
      have hl : Later origin t.loaded := (h.later i origin (by rw [hst]; rfl)).right _ (by rw [hst]; rfl)
      obtain ⟨hseen, hc⟩ := (effect_task hx).succeeds ht
      exact ⟨fun hr => hseen (hl _ hr), hseen, hc⟩

theorem step : Sound authority uuid4 s' where
  taken    := h.step_taken hs
  later    := h.step_since hs
  unused   := h.step_unused hs
  recorded := h.step_recorded hs
  distinct := h.step_distinct hs
  good     := h.step_good hs

end Steps

theorem start {swarm : Swarm} (h : ∀ n, stateOf swarm.document ("lgr-" ++ uuid4.hex n) = none) :
    Sound authority uuid4 (.start swarm) where
  taken _ _ _ _ hp     := by cases hp
  later _ _ hp         := by cases hp
  unused n _           := h n
  recorded _ _ _ hp    := by cases hp
  distinct _ _ _ _ _ hp := by cases hp
  good _ hx            := by cases hx

theorem stateOf_of_disable {c : History} {after : Document} {r : Unit}
    (h : (Task.write authority now .disable).change.exec c d = .ok (r, after)) : stateOf after grantId =
      if stateOf d grantId = some .issued then some .revoked else stateOf d grantId := by
  cases effect_task h
  case disable          => exact stateOf_disable
  case other hn _ _ _ _ => exact (hn rfl).elim

-- A `disable` that is committed revokes what it loaded as issued, and leaves what was issued since.
theorem disabled_iff (h : Sound authority uuid4 s) (hs : s.stages i = .attempted .disable origin t)
    (hc : s.swarm.commit t now = .committed r swarm') :
    (∀ grantId, stateOf s.swarm.document grantId = some .issued →
      stateOf swarm'.document grantId = some .revoked) ↔
    ∀ grantId, stateOf t.loaded grantId = none → stateOf s.swarm.document grantId ≠ some .issued := by
  obtain ⟨ht, now', hw⟩ := h.taken i .disable origin t hs
  obtain ⟨after, hx, hm⟩ := WriteAttempt.commit_merges ht hc
  rw [hw] at hx
  have hafter (grantId : String) : stateOf after grantId =
      if stateOf t.loaded grantId = some .issued then some .revoked else stateOf t.loaded grantId :=
    stateOf_of_disable hx
  -- A grant that was there at the load is as it was loaded.
  have hscanned (grantId : String) (hl : stateOf t.loaded grantId ≠ none) :
      stateOf s.swarm.document grantId = stateOf t.loaded grantId := by
    rw [stateOf_eq, stateOf_eq, WriteAttempt.fetch_of_scanned (s := .grants) ht hc trivial]
    case hr =>
      rw [WriteAttempt.Scans, hw]
      exact ⟨_, rfl, rfl⟩
    case hk =>
      intro hn
      rw [stateOf_eq, hn] at hl
      exact hl rfl
  constructor
  case mp =>
    intro hall grantId hn hi
    have hk : t.loaded.fetch ⟨.grants, grantId⟩ = after.fetch ⟨.grants, grantId⟩ := by
      have ha := hafter grantId
      rw [hn, if_neg (by simp)] at ha
      exact (Option.map_eq_none_iff.mp hn).trans (Option.map_eq_none_iff.mp ha).symm
    have hr := hall grantId hi
    rw [stateOf_eq, hm.kept (s := .grants) trivial hk, ← stateOf_eq, hi] at hr
    cases hr
  case mpr =>
    intro hcatch grantId hi
    have hl : stateOf t.loaded grantId = some .issued := by
      rw [← hscanned grantId fun hn => hcatch grantId hn hi, hi]
    have hk : t.loaded.fetch ⟨.grants, grantId⟩ ≠ after.fetch ⟨.grants, grantId⟩ := by
      intro he
      have ha := hafter grantId
      rw [stateOf_eq, ← he, ← stateOf_eq, hl] at ha
      simp at ha
    rw [stateOf_eq, (hm.written (s := .grants) trivial hk).right, ← stateOf_eq, hafter, if_pos hl]

-- A `disable` that has nothing to write found no grant issued.
theorem returned (h : Sound authority uuid4 s) (hs : s.stages i = .attempted .disable origin t)
    (hc : s.swarm.commit t now = .returned r) (grantId : String) : stateOf t.loaded grantId ≠ some .issued := by
  obtain ⟨-, now', hw⟩ := h.taken i .disable origin t hs
  obtain ⟨after, hx, hsame⟩ := WriteAttempt.exec_of_returned hc
  rw [hw] at hx
  have ha : stateOf after grantId = stateOf t.loaded grantId := by
    rw [stateOf_eq, hsame (s := .grants) trivial, ← stateOf_eq]
  rw [stateOf_of_disable hx] at ha
  intro hi
  simp [hi] at ha

variable (slug) in
-- A step keeps what it has to if and only if it is no `disable` that misses a grant.
theorem kept_iff (h : Sound authority uuid4 s) : s.Kept authority slug uuid4 e ↔ s.Catches e := by
  constructor
  case mp =>
    rintro hk t outcome ⟨i, now, origin, he, hs, rfl⟩ hnext
    cases hc : s.swarm.commit t now
    case committed r swarm =>
      exact (h.disabled_iff hs hc).mp (hk.disabled t r swarm ⟨i, now, origin, he, hs, hc.symm⟩)
    all_goals
      rw [hc] at hnext
      cases hnext
  case mpr =>
    intro hcatch
    constructor
    case registered => exact fun _ _ hr => h.step_registered .step hr
    case moves      => exact fun _ => h.step_moves .step
    case successes  => exact h.step_good .step
    case disabled =>
      rintro t r swarm ⟨i, now, origin, he, hs, hc⟩
      apply (h.disabled_iff hs hc.symm).mpr
      exact hcatch t _ ⟨i, now, origin, he, hs, hc⟩ rfl
    case returned =>
      rintro t r ⟨i, now, origin, he, hs, hc⟩
      exact h.returned hs hc.symm

end Sound

-- From any swarm none of whose grants has an identifier that is still to be drawn.
theorem grants_run (authority : LaunchAuthority) (slug : String) (uuid4 : Supply) (swarm : Swarm) (es : List Event)
    (h : ∀ n, stateOf swarm.document ("lgr-" ++ uuid4.hex n) = none) :
    Run.Along (System.step authority slug uuid4) (System.Kept authority slug uuid4) (.start swarm) es ↔
      Run.Along (System.step authority slug uuid4) System.Catches (.start swarm) es := by
  have hs (s : System) (e : Event) (hs : Sound authority uuid4 s) :
      Sound authority uuid4 (s.step authority slug uuid4 e) := hs.step .step
  constructor
  case mp =>
    intro hk
    exact hk.of_invariant (I := Sound authority uuid4) (fun s e hi _ => hs s e hi)
      (fun _ _ hi hk => (hi.kept_iff slug).mp hk) (.start h)
  case mpr =>
    intro hc
    exact hc.of_invariant (I := Sound authority uuid4) (fun s e hi _ => hs s e hi)
      (fun _ _ hi hc => (hi.kept_iff slug).mpr hc) (.start h)

def controller : LaunchAuthority :=
  ⟨"key", "controller", "workers", 300, fun _ => "2026-01-01T00:00:00Z"⟩

def execution : AgentRecord :=
  ⟨"a", "eng", "t1", "", "", 0, .working, "", "", "seat@s", ⟨none, ∅⟩, 0, "[]", "exe-1", 1, .local, ∅, "", "", ∅⟩

-- A swarm whose records are under keys of their own, with one execution.
def recorded : Swarm where
  entry := ⟨.empty, none, true, 0⟩
  store := Versioned.Store.empty.apply (Sections.assign (fun _ => ∅) .executions
    (Finmap.singleton "exe-1" (.put none execution)))

theorem recorded_ungranted (grantId : String) : stateOf recorded.document grantId = none := by
  have hg : (recorded.store.rows .grants).lookup grantId = none := by
    simp [recorded, Versioned.Store.apply, Versioned.Store.leave, Versioned.Store.empty, Sections.assign]
  rw [Sound.stateOf_eq]
  have hf : recorded.document.fetch ⟨.grants, grantId⟩ = _ := Section.IsPlain.fetch_loadedDocument trivial
  rw [hf, hg]
  rfl

-- A grant is issued, and a `disable` that was loaded after it is committed.
def caught : List Event :=
  [.call 0 (.issue "exe-1" ⟨some ["local:tools"], "brain", "acc"⟩), .step 0 0, .step 0 0, .step 0 0,
   .call 1 .disable, .step 1 0, .step 1 0]

theorem grants_run_caught :
    Run.Along (System.step controller "s" .unary) (System.Kept controller "s" .unary) (.start recorded)
      (caught ++ [.step 1 0]) ↔
    Run.Along (System.step controller "s" .unary) System.Catches (.start recorded) (caught ++ [.step 1 0]) :=
  grants_run controller "s" .unary recorded _ fun _ => recorded_ungranted _

-- The `disable` is loaded before the grant is issued.
def missed : List Event :=
  [.call 0 (.issue "exe-1" ⟨some ["local:tools"], "brain", "acc"⟩), .step 0 0, .call 1 .disable, .step 1 0, .step 1 0,
   .step 0 0, .step 0 0]

def claims : LaunchClaims :=
  ⟨"lgr-", "s", "exe-1", 1, "seat@s", "t1", "acc", "brain", listed ["local:tools"], "controller", "workers", "key", 0, 300⟩

def body : Dict String TargetValue :=
  (∅ : Dict String TargetValue).insert "execution_id" (.text "exe-1") |>.insert "generation" (.whole 1)

-- The grant that the `disable` misses is registered once grants are enabled.
def enabled : List Event :=
  missed ++ [.step 1 0, .call 1 .enable, .step 1 0, .step 1 0, .step 1 0,
    .call 0 (.register claims (some body)), .step 0 0, .step 0 0, .step 0 0]

theorem missed_not_kept :
    ¬Run.Along (System.step controller "s" .unary) (System.Kept controller "s" .unary) (.start recorded)
      (missed ++ [.step 1 0]) ∧
    (Run.run (System.step controller "s" .unary) (.start recorded) enabled).successes.map (·.operation) =
      [.register] := by
  constructor
  case left =>
    intro h
    obtain ⟨-, hk, -⟩ := Run.Along.append.mp h
    obtain ⟨origin, t, r, swarm, hs, hc, hi, hr⟩ : ∃ origin t r swarm,
        (Run.run (System.step controller "s" .unary) (.start recorded) missed).stages 1 = .attempted .disable origin t ∧
        .committed r swarm = (Run.run (System.step controller "s" .unary) (.start recorded) missed).swarm.commit t 0 ∧
        stateOf (Run.run (System.step controller "s" .unary) (.start recorded) missed).swarm.document "lgr-" = some .issued ∧
        stateOf swarm.document "lgr-" ≠ some .revoked :=
      ⟨_, _, _, _, rfl, rfl, by decide +kernel, by decide +kernel⟩
    exact hr (hk.disabled t r swarm ⟨1, 0, origin, rfl, hs, hc⟩ "lgr-" hi)
  case right => decide +kernel

end Launch
