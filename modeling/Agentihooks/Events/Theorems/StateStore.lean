import Agentihooks.Events.StateStore

namespace StateStore

variable {κ α β : Type} [DecidableEq κ] {projection : α → β} {s s' : Bucket κ α β} {key : κ} {value : α}

-- What is published never runs ahead of the bucket. Once both agree every projection is the one of its current row.
structure Valid (projection : α → β) (s : Bucket κ α β) : Prop where
  published : ∀ revision, s.published = some revision → ∃ current, s.revision = some current ∧ revision ≤ current
  absent    : s.published = none → s.projected = ∅
  projected : s.revision = s.published → ∀ key row, s.projected.lookup key = some row →
    (s.current.lookup key).map (fun entry => ⟨projection entry.value, entry.revision⟩) = some row

theorem valid_empty : Valid projection (.empty : Bucket κ α β) where
  published := by simp [Bucket.empty]
  absent    := fun _ => rfl
  projected := by simp [Bucket.empty]

-- A write that leaves the mark behind makes every projection wait.
theorem Valid.put (h : Valid projection s) (row : StateEntry α) : Valid projection (s.put key row) := by
  have hlt : ∀ revision, s.published = some revision → ∃ current, s.revision.getD 0 + 1 = current ∧ revision < current := by
    intro revision hp
    obtain ⟨current, hc, hle⟩ := h.published revision hp
    exact ⟨_, rfl, by rw [hc, Option.getD_some]; omega⟩
  constructor
  case published =>
    intro revision hp
    obtain ⟨_, rfl, hlt⟩ := hlt revision hp
    exact ⟨_, rfl, hlt.le⟩
  case absent => exact h.absent
  case projected =>
    intro he
    obtain ⟨_, rfl, hlt⟩ := hlt _ he.symm
    exact absurd hlt (lt_irrefl _)

-- A write that moves the mark with the bucket has the rows of the other keys checked against it, or wiped.
theorem Valid.project {p : Option (α → β)} (h : Valid projection s) (hp : ∀ f, p = some f → f = projection) :
    Valid projection ((s.project p key value (s.revision.getD 0 + 1) (s.revision = s.published)).put key
      ⟨value, s.revision.getD 0 + 1⟩) := by
  have hrows (k : κ) (hk : k ≠ key) (row : StateEntry β)
      (hr : (if s.revision = s.published then s.projected else ∅).lookup k = some row) :
      (s.current.lookup k).map (fun entry => ⟨projection entry.value, entry.revision⟩) = some row := by
    split_ifs at hr with hc
    case pos => exact h.projected hc k row hr
    case neg => simp at hr
  constructor
  case published => exact fun _ hp => ⟨_, rfl, (Option.some_inj.mp hp).symm.le⟩
  case absent    => exact fun hp => by cases hp
  case projected =>
    rintro - k row hr
    by_cases hk : k = key
    case pos =>
      subst hk
      cases p
      case none => simp [Bucket.put, Bucket.project] at hr
      case some f =>
        cases hp f rfl
        simp only [Bucket.put, Bucket.project, Finmap.lookup_insert] at hr ⊢
        exact hr
    case neg =>
      have hl : (s.current.insert key ⟨value, s.revision.getD 0 + 1⟩).lookup k = s.current.lookup k :=
        Finmap.lookup_insert_of_ne _ hk
      refine (congrArg _ hl).trans (hrows k hk row ?_)
      cases p
      case none   => simpa [Bucket.put, Bucket.project, Finmap.lookup_erase_ne hk] using hr
      case some f => simpa [Bucket.put, Bucket.project, Finmap.lookup_insert_of_ne _ hk] using hr

theorem Valid.write {p : Option (α → β)} {revision : Option ℕ} {written : ℕ} (h : Valid projection s)
    (hp : ∀ f, p = some f → f = projection) (hw : s.write p key value revision = .ok (s', written)) :
    Valid projection s' := by
  rw [Bucket.write] at hw
  split_ifs at hw
  case pos =>
    cases hw
    exact h.project hp
  case neg =>
    cases hw
    exact h.put _

theorem Valid.step (h : Valid projection s) (x : Step κ α) : Valid projection (step projection s x) := by
  rw [StateStore.step]
  cases ha : attempt projection s x
  case error => exact h
  case ok s' =>
    cases x
    case write projects key value revision =>
      cases hw : s.write (if projects then some projection else none) key value revision
      case error => simp [attempt, hw, Except.map] at ha
      case ok written =>
        rw [attempt, hw] at ha
        cases ha
        refine h.write (fun f hf => ?_) hw
        cases projects
        case false => cases hf
        case true  => exact (Option.some_inj.mp hf).symm
    case older key value =>
      cases ha
      exact h.put _
    case queue key value =>
      rw [attempt] at ha
      split at ha
      · cases ha
      · cases ha
        exact h.put _

theorem run_valid (steps : List (Step κ α)) : Valid projection (run projection steps) := by
  suffices hs : ∀ s : Bucket κ α β, Valid projection s → Valid projection (steps.foldl (step projection) s) from
    hs _ valid_empty
  induction steps
  case nil => exact fun _ h => h
  case cons x steps hi => exact fun s h => hi _ (h.step x)

-- Every step that succeeds puts one row, whatever it does to the projections.
theorem attempt_cases {x : Step κ α} (h : attempt projection s x = .ok s') : ∃ (t : Bucket κ α β) (key : κ)
    (row : StateEntry α), t.current = s.current ∧ t.history = s.history ∧ s' = t.put key row := by
  cases x
  case write projects key value revision =>
    cases hw : s.write (if projects then some projection else none) key value revision
    case error => simp [attempt, hw, Except.map] at h
    case ok written =>
      rw [attempt, hw] at h
      cases h
      generalize (if projects then some projection else none) = p at hw
      rw [Bucket.write] at hw
      split_ifs at hw
      case pos =>
        cases hw
        exact ⟨s.project p key value _ _, key, _, rfl, rfl, rfl⟩
      case neg =>
        cases hw
        exact ⟨s, key, _, rfl, rfl, rfl⟩
  case older key value =>
    cases h
    exact ⟨s, key, _, rfl, rfl, rfl⟩
  case queue key value =>
    rw [attempt] at h
    split at h
    · cases h
    · cases h
      exact ⟨s, key, _, rfl, rfl, rfl⟩

theorem getLast?_put (h : ∀ key, (s.history key).getLast? = s.get key) (key' : κ) (row : StateEntry α) :
    ((s.put key row).history key').getLast? = (s.put key row).get key' := by
  by_cases hk : key' = key
  case pos =>
    subst hk
    simp only [Bucket.put, Bucket.get, Bucket.HISTORY, Function.update_self, Finmap.lookup_insert, List.getLast?_drop,
      List.length_append, List.length_singleton, List.getLast?_concat]
    rw [if_neg (by omega)]
  case neg =>
    have hg := h key'
    simpa [Bucket.put, Bucket.get, Function.update_of_ne hk, Finmap.lookup_insert_of_ne _ hk] using hg

-- Who watches a key from the beginning sees its current row last.
theorem getLast?_watch (steps : List (Step κ α)) (key : κ) :
    ((run projection steps).watch key 0).getLast? = (run projection steps).get key := by
  have hw (s : Bucket κ α β) : s.watch key 0 = s.history key := by simp [Bucket.watch]
  suffices hs : ∀ s : Bucket κ α β, (∀ key, (s.history key).getLast? = s.get key) →
      ∀ key, ((steps.foldl (step projection) s).history key).getLast? = (steps.foldl (step projection) s).get key from
    hw _ ▸ hs .empty (fun _ => rfl) key
  induction steps
  case nil => exact fun _ h => h
  case cons x steps hi =>
    refine fun s h => hi _ fun key => ?_
    rw [step]
    cases ha : attempt projection s x
    case error => exact h key
    case ok s' =>
      obtain ⟨t, key', row, hc, hh, rfl⟩ := attempt_cases ha
      refine getLast?_put (fun k => ?_) key row
      rw [hh, Bucket.get, hc]
      exact h k

-- A projection is that of the current row, with its revision, or there is none to be had.
theorem getProjection_exact (projection : α → β) (steps : List (Step κ α)) (key : κ) :
    (run projection steps).getProjection key = none ∨ (run projection steps).getProjection key =
      ((run projection steps).get key).map fun entry => ⟨projection entry.value, entry.revision⟩ := by
  rw [Bucket.getProjection]
  split_ifs with he
  case neg => exact .inl rfl
  case pos =>
    cases hr : (run projection steps).projected.lookup key
    case none => exact .inl rfl
    case some row => exact .inr ((run_valid steps).projected he key row hr).symm

-- A reader that falls back on the row itself misses nothing, as `sections` does with the projected executions.
theorem getProjection_or_get (projection : α → β) (steps : List (Step κ α)) (key : κ) :
    (((run projection steps).getProjection key).orElse fun _ =>
      ((run projection steps).get key).map fun entry => ⟨projection entry.value, entry.revision⟩) =
      ((run projection steps).get key).map fun entry => ⟨projection entry.value, entry.revision⟩ := by
  cases getProjection_exact projection steps key
  case inl h => rw [h, Option.orElse_none]
  case inr h =>
    rw [h]
    cases (run projection steps).get key <;> rfl

end StateStore
