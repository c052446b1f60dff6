import Agentihooks.Runtime.Operations

-- What each write of the journal does when it is accepted.

namespace Runtime

open Program Fencing Fencing.Change Execution

variable {digests : Digests} {d d' : Document} {c : History} {α : Type} {operation previous : Operation}

-- A later row of an operation. One that has come to its end is the last.
structure Follows (previous operation : Operation) : Prop where
  absorbed      : Absorbed previous → operation = previous
  action        : operation.action = previous.action
  payloadDigest : operation.payloadDigest = previous.payloadDigest

theorem Follows.refl : Follows operation operation :=
  ⟨fun _ => rfl, rfl, rfl⟩

-- The journal gets one row, following the one it had for the operation.
structure Writes (d d' : Document) (operation : Operation) : Prop where
  operations : d' .operations = .singleton operation.operationId operation ∪ d .operations
  follows    : ∀ previous, (d .operations).lookup operation.operationId = some previous →
    Follows previous operation

theorem currentExecution_ok {executionId : String} {generation : ℕ} {f : AgentRecord → Change α}
    {r : α × Document} (h : (currentExecution executionId generation >>= f).exec c d = .ok r) :
    ∃ agent, agent.executionId = executionId ∧ (f agent).exec c d = .ok r := by
  unfold currentExecution at h
  rw [exec_bind_assoc] at h
  obtain ⟨row, h⟩ := executionRow_ok h
  cases row
  case none => simp at h
  case some agent =>
    simp only [exec_bind_assoc, exec_scan] at h
    cases ho : occupant (d .executions) agent.seat
    case none => simp [ho] at h
    case some current =>
      simp [ho] at h
      exact ⟨current, h.left.left, h.right⟩

theorem commit_ok {change : Change Operation} (h : (commit change).exec c d = .ok (operation, d')) :
    ∃ d₁, change.exec c d = .ok (operation, d₁) ∧
      d' = d₁.put .operations operation.operationId operation := by
  unfold commit at h
  rw [exec_bind] at h
  split at h
  case h_1 op d₁ heq =>
    simp at h
    obtain ⟨rfl, rfl⟩ := h
    exact ⟨d₁, heq, rfl⟩
  case h_2 => cases h

theorem prepare_ok {slug : String} {request : OperationRequest} {specs : Backend → Option String}
    {epoch : Option Int} (h : (prepare digests slug request specs epoch).exec c d = .ok (operation, d')) :
    Writes d d' operation ∧ operation.operationId = request.operationId digests slug ∧
      operation.action = request.action ∧ operation.payloadDigest = request.payloadDigest digests := by
  simp only [prepare, exec_ensure, guard_ok] at h
  obtain ⟨d₁, hx, rfl⟩ := commit_ok h.right.right
  obtain ⟨agent, _, hx⟩ := currentExecution_ok hx
  simp only [exec_read] at hx
  cases hr : (d .operations).lookup (expected digests slug request specs epoch agent).operationId
  case none =>
    simp [hr] at hx
    obtain ⟨rfl, rfl⟩ := hx
    refine ⟨⟨by simp, fun previous hp => ?_⟩, rfl, rfl, rfl⟩
    rw [hr] at hp
    cases hp
  case some row =>
    simp [hr] at hx
    obtain ⟨he, _, rfl, rfl⟩ := hx
    simp [unsettled] at he
    refine ⟨⟨by simp, fun previous hp => ?_⟩, he.1, he.2.2.2.1, he.2.2.2.2.2.1⟩
    rw [he.1, hr] at hp
    cases hp
    exact .refl

theorem operationId_of_unsettled (h : unsettled previous = unsettled operation) :
    previous.operationId = operation.operationId := by
  simp only [unsettled, Operation.mk.injEq] at h
  exact h.1

theorem settled_follows {observation : Observation} {attempted : Bool} (h : ¬Absorbed previous) :
    Follows previous (settled previous observation attempted) :=
  ⟨fun ha => absurd ha h, rfl, rfl⟩

theorem settle_ok {row : Operation} {observation : Observation} {attempted : Bool}
    (h : (settle row observation attempted).exec c d = .ok (operation, d')) :
    Writes d d' operation ∧ operation.operationId = row.operationId ∧
      (observation.phase = .unknown → attempted → operation.attempted ∨ Absorbed operation) := by
  obtain ⟨d₁, hx, rfl⟩ := commit_ok h
  obtain ⟨agent, _, hx⟩ := currentExecution_ok hx
  simp only [exec_ensure, guard_ok, exec_read] at hx
  cases hr : (d .operations).lookup row.operationId
  case none => simp [hr] at hx
  case some current =>
    simp [hr] at hx
    obtain ⟨_, he, ho, rfl⟩ := hx
    have hi : current.operationId = row.operationId := operationId_of_unsettled he
    by_cases ha : Absorbed current
    case pos =>
      rw [if_pos ha] at ho
      subst ho
      refine ⟨⟨by simp, fun previous hp => ?_⟩, hi, fun _ _ => .inr ha⟩
      rw [hi, hr] at hp
      cases hp
      exact .refl
    case neg =>
      rw [if_neg ha] at ho
      subst ho
      refine ⟨⟨by simp, fun previous hp => ?_⟩, hi, fun ho ht => .inl ?_⟩
      · replace hp : (d .operations).lookup current.operationId = some previous := hp
        rw [hi, hr] at hp
        cases hp
        exact settled_follows ha
      · simp [settled, ho, ht]

theorem supersede_ok {row : Operation}
    (h : (supersedeLegacySpawn row).exec c d = .ok (operation, d')) : Writes d d' operation := by
  obtain ⟨d₁, hx, rfl⟩ := commit_ok h
  obtain ⟨agent, _, hx⟩ := currentExecution_ok hx
  simp only [exec_ensure, guard_ok, exec_read] at hx
  obtain ⟨hr, hx⟩ := hx
  by_cases hn : row.backend ≠ .kubernetes ∨ row.action ≠ .spawn ∨ row.specDigest ≠ "" ∨ Absorbed row
  case pos =>
    simp only [hn, if_true, exec_pure, Except.ok.injEq, Prod.mk.injEq] at hx
    obtain ⟨rfl, rfl⟩ := hx
    refine ⟨by simp, fun previous hp => ?_⟩
    rw [hr] at hp
    cases hp
    exact .refl
  case neg =>
    simp only [hn, if_false, exec_pure, Except.ok.injEq, Prod.mk.injEq] at hx
    obtain ⟨rfl, rfl⟩ := hx
    refine ⟨by simp, fun previous hp => ?_⟩
    replace hp : (d .operations).lookup row.operationId = some previous := hp
    rw [hr] at hp
    cases hp
    simp only [not_or, not_not] at hn
    exact ⟨fun ha => absurd ha hn.2.2.2, rfl, rfl⟩

end Runtime

namespace Runtime

open Program Fencing Execution

variable {digests : Digests} {w : World} {e : Event} {scope : Scope} {caller : ℕ} {d d' : Document}
variable {operation previous : Operation} {change : Change Operation}

theorem Follows.trans {later : Operation} (h₁ : Follows previous operation)
    (h₂ : Follows operation later) : Follows previous later where
  absorbed      := fun ha => by
    have he := h₁.absorbed ha
    exact (h₂.absorbed (he ▸ ha)).trans he
  action        := h₂.action.trans h₁.action
  payloadDigest := h₂.payloadDigest.trans h₁.payloadDigest

-- The journal loses no row, and every row goes on as one that follows it.
def Extended (d d' : Document) : Prop :=
  ∀ id previous, (d .operations).lookup id = some previous →
    ∃ operation, (d' .operations).lookup id = some operation ∧ Follows previous operation

theorem Extended.refl : Extended d d :=
  fun _ previous h => ⟨previous, h, .refl⟩

theorem Extended.trans {d'' : Document} (h₁ : Extended d d') (h₂ : Extended d' d'') :
    Extended d d'' := by
  intro id previous h
  obtain ⟨operation, hk, hf⟩ := h₁ id previous h
  obtain ⟨later, hl, hf'⟩ := h₂ id operation hk
  exact ⟨later, hl, hf.trans hf'⟩

theorem extended_of_operations (h : d' .operations = d .operations) : Extended d d' :=
  fun _ previous hk => ⟨previous, h ▸ hk, .refl⟩

theorem Writes.extended (h : Writes d d' operation) : Extended d d' := by
  intro id previous hk
  by_cases hi : id = operation.operationId
  case pos =>
    subst hi
    exact ⟨operation, by simp [h.operations], h.follows previous hk⟩
  case neg => exact ⟨previous, by simp [h.operations, hi, hk], .refl⟩

theorem Writes.lookup (h : Writes d d' operation) :
    (d' .operations).lookup operation.operationId = some operation := by
  simp [h.operations]

-- Each call of `apply_operation` comes straight after the caller's own observation that the operation is
-- absent and the commit of its attempt.
def Justified (deeds : List Deed) : Prop :=
  ∀ pre operation post, deeds = pre ++ .applied operation :: post →
    ∃ pre' seen, pre = pre' ++ [.absent seen, .attempted operation] ∧
      seen.operationId = operation.operationId ∧ (operation.attempted ∨ Absorbed operation)

theorem Justified.concat {deeds : List Deed} {deed : Deed} (h : Justified deeds)
    (hd : ∀ operation, deed = .applied operation →
      ∃ pre' seen, deeds = pre' ++ [.absent seen, .attempted operation] ∧
        seen.operationId = operation.operationId ∧ (operation.attempted ∨ Absorbed operation)) :
    Justified (deeds ++ [deed]) := by
  intro pre operation post he
  rcases List.eq_nil_or_concat post with rfl | ⟨post', last, rfl⟩
  · obtain ⟨rfl, hl⟩ := List.append_inj' he rfl
    exact hd operation (List.cons.inj hl).left
  · rw [List.concat_eq_append, ← List.cons_append, ← List.append_assoc] at he
    obtain ⟨he, _⟩ := List.append_inj' he rfl
    exact h pre operation post' he

-- What is behind an accepted request.
def Accepted (digests : Digests) (d : Document) : Deed → Prop
  | .prepared slug request operation =>
    operation.operationId = request.operationId digests slug ∧
      ∃ row, (d .operations).lookup operation.operationId = some row ∧
        row.action = request.action ∧ row.payloadDigest = request.payloadDigest digests
  | _ => True

theorem Accepted.extended {deed : Deed} (h : Accepted digests d deed) (hx : Extended d d') :
    Accepted digests d' deed := by
  cases deed
  case prepared slug request operation =>
    obtain ⟨hi, row, hk, ha, hp⟩ := h
    obtain ⟨row', hk', hf⟩ := hx _ row hk
    exact ⟨hi, row', hk', hf.action.trans ha, hf.payloadDigest.trans hp⟩
  all_goals trivial

-- Where a caller is agrees with what it did last.
def Stage.Agrees (deeds : List Deed) : Stage → Prop
  | absent operation    => ∃ pre, deeds = pre ++ [.absent operation]
  | attempted operation => ∃ pre seen, deeds = pre ++ [.absent seen, .attempted operation] ∧
    seen.operationId = operation.operationId ∧ (operation.attempted ∨ Absorbed operation)
  | _ => True

structure Journaled (digests : Digests) (w : World) : Prop where
  justified : ∀ caller, Justified (w.deeds caller)
  accepted  : ∀ caller, ∀ deed ∈ w.deeds caller, Accepted digests w.document deed
  stage     : ∀ caller, (w.stage caller).Agrees (w.deeds caller)

namespace World

theorem commit_ok (h : w.commit scope change = some (operation, d')) :
    change.exec scope.history w.document = .ok (operation, d') := by
  unfold commit at h
  cases hx : (Lease.fenced (scope.epoch.map .epoch) scope.now change).exec scope.history w.document
  case error => simp [hx, Except.toOption] at h
  case ok r  =>
    simp only [hx, Except.toOption, Option.some.injEq] at h
    exact h ▸ (Lease.fenced_ok hx).left

end World

namespace Journaled

theorem empty : Journaled digests .empty where
  justified := fun _ pre _ _ h => by simp [World.empty] at h
  accepted  := fun _ _ h => by simp [World.empty] at h
  stage     := fun _ => trivial

variable (h : Journaled digests w)
include h

theorem document (hx : Extended w.document d') : Journaled digests { w with document := d' } where
  justified := h.justified
  accepted  := fun caller deed hd => (h.accepted caller deed hd).extended hx
  stage     := h.stage

theorem enter {stage : Stage} (hs : stage.Agrees (w.deeds caller)) :
    Journaled digests (w.enter caller stage) where
  justified := h.justified
  accepted  := h.accepted
  stage     := fun other => by
    by_cases ho : other = caller
    case pos => subst ho; simpa [World.enter] using hs
    case neg => simpa [World.enter, ho] using h.stage other

-- A deed is recorded together with the stage it leads to.
theorem log_enter {deed : Deed} {stage : Stage} (ha : Accepted digests w.document deed)
    (hd : ∀ operation, deed = .applied operation →
      ∃ pre' seen, w.deeds caller = pre' ++ [.absent seen, .attempted operation] ∧
        seen.operationId = operation.operationId ∧ (operation.attempted ∨ Absorbed operation))
    (hs : stage.Agrees (w.deeds caller ++ [deed])) :
    Journaled digests ((w.log caller deed).enter caller stage) where
  justified := fun other => by
    by_cases ho : other = caller
    case pos => subst ho; simpa [World.enter, World.log] using (h.justified other).concat hd
    case neg => simpa [World.enter, World.log, ho] using h.justified other
  accepted  := fun other deed' hm => by
    by_cases ho : other = caller
    case neg => exact h.accepted other deed' (by simpa [World.enter, World.log, ho] using hm)
    case pos =>
      subst ho
      simp only [World.enter, World.log, Function.update_self, List.mem_append,
        List.mem_singleton] at hm
      rcases hm with hm | rfl
      · exact h.accepted other deed' hm
      · exact ha
  stage     := fun other => by
    by_cases ho : other = caller
    case pos => subst ho; simpa [World.enter, World.log] using hs
    case neg => simpa [World.enter, World.log, ho] using h.stage other

theorem write {next : Operation → World → World}
    (hn : ∀ operation d', change.exec scope.history w.document = .ok (operation, d') →
      Journaled digests (next operation { w with document := d' })) :
    Journaled digests (w.write caller scope change next) := by
  unfold World.write
  split
  case h_1     => exact h.enter trivial
  case h_2 heq => exact hn _ _ (World.commit_ok heq)

theorem step : Journaled digests (w.step digests e) := by
  cases e
  case execute caller scope slug request specs =>
    simp only [World.step]
    refine h.write fun operation d' hx => ?_
    obtain ⟨hw, hi, ha, hp⟩ := prepare_ok hx
    refine (h.document hw.extended).log_enter ⟨hi, operation, hw.lookup, ha, hp⟩ (by simp) ?_
    split <;> trivial
  case unsupported caller =>
    simp only [World.step]
    split
    · exact h.enter trivial
    · exact h.enter trivial
    · exact h
  case observe caller answer dispatchEnabled =>
    simp only [World.step]
    split
    case h_1 operation _ =>
      split
      · exact h.enter trivial
      · exact h.log_enter trivial (by simp) ⟨_, rfl⟩
    case h_2 => exact h.enter trivial
    case h_3 => exact h
  case attempt caller scope =>
    simp only [World.step]
    split
    case h_2 => exact h
    case h_1 seen hs =>
      refine h.write fun operation d' hx => ?_
      obtain ⟨hw, hi, ha⟩ := settle_ok hx
      obtain ⟨pre, hpre⟩ : (Stage.absent seen).Agrees (w.deeds caller) := hs ▸ h.stage caller
      refine (h.document hw.extended).log_enter trivial (by simp) ⟨pre, seen, ?_, hi.symm, ha rfl rfl⟩
      simp [hpre]
  case apply caller answer =>
    simp only [World.step]
    split
    case h_2 => exact h
    case h_1 operation hs =>
      obtain ⟨pre, seen, hpre⟩ : (Stage.attempted operation).Agrees (w.deeds caller) := hs ▸ h.stage caller
      refine h.log_enter trivial (fun _ ho => ?_) trivial
      cases ho
      exact ⟨pre, seen, hpre⟩
  case conclude caller scope =>
    simp only [World.step]
    split
    case h_2 => exact h
    case h_1 =>
      refine h.write fun operation d' hx => ?_
      exact (h.document (settle_ok hx).left.extended).enter trivial
  case recover caller operationId =>
    simp only [World.step]
    split
    case h_2 => exact h
    case h_1 =>
      split
      · exact h
      · exact h.enter trivial
  case settle scope operation observation attempted =>
    simp only [World.step]
    split
    case h_1 heq => exact h.document (settle_ok (World.commit_ok heq)).left.extended
    case h_2     => exact h
  case supersede scope operation =>
    simp only [World.step]
    split
    case h_1 heq => exact h.document (supersede_ok (World.commit_ok heq)).extended
    case h_2     => exact h
  case crash caller => exact h.enter trivial
  case other document => exact h.document (extended_of_operations (by simp))

omit h in
theorem run (es : List Event) : Journaled digests (.run digests es) :=
  Run.invariant (fun _ _ h => h.step) .empty

end Journaled

theorem World.extended_write {next : Operation → World → World}
    (hw : ∀ operation d', change.exec scope.history w.document = .ok (operation, d') →
      Extended w.document d')
    (hn : ∀ operation w, (next operation w).document = w.document) :
    Extended w.document (w.write caller scope change next).document := by
  unfold World.write
  split
  case h_1     => exact .refl
  case h_2 heq =>
    rw [hn]
    exact hw _ _ (World.commit_ok heq)

-- Every step extends the journal.
theorem World.extended_step : Extended w.document (w.step digests e).document := by
  cases e <;> simp only [World.step]
  case execute =>
    exact extended_write (fun _ _ hx => (prepare_ok hx).left.extended) fun _ _ => rfl
  case unsupported => split <;> exact .refl
  case observe =>
    split
    · split <;> exact .refl
    · exact .refl
    · exact .refl
  case attempt =>
    split
    · exact extended_write (fun _ _ hx => (settle_ok hx).left.extended) fun _ _ => rfl
    · exact .refl
  case apply => split <;> exact .refl
  case conclude =>
    split
    · exact extended_write (fun _ _ hx => (settle_ok hx).left.extended) fun _ _ => rfl
    · exact .refl
  case recover =>
    split
    · split <;> exact .refl
    · exact .refl
  case settle =>
    split
    case h_1 heq => exact (settle_ok (World.commit_ok heq)).left.extended
    case h_2     => exact .refl
  case supersede =>
    split
    case h_1 heq => exact (supersede_ok (World.commit_ok heq)).extended
    case h_2     => exact .refl
  case crash => exact .refl
  case other => exact extended_of_operations (by simp)

theorem World.extended_run {es : List Event} :
    Extended w.document (Run.run (World.step digests) w es).document := by
  induction es generalizing w
  case nil       => exact .refl
  case cons e hi => exact extended_step.trans hi

theorem OperationRequest.operationId_iff {slug : String} {request request' : OperationRequest} :
    request.operationId digests slug = request'.operationId digests slug ↔
      request.executionId = request'.executionId ∧ request.journalKey = request'.journalKey := by
  unfold OperationRequest.operationId
  rw [String.append_right_inj, digests.uuid5_inj.eq_iff]
  simp

-- The journal over every run of any number of callers: an operation that has come to its end stays as it
-- is; a transport is told to apply an operation only straight after the same caller observed it absent
-- and committed its attempt, whose row is attempted unless it has come to its end; an accepted identity
-- stands for one action and payload; and the requests of one execution share an identity exactly when
-- they are all spawns or name one key, where a spawn goes under the key "spawn".
theorem journal_run (digests : Digests) (es : List Event) :
    (∀ es' id row, ((World.run digests es).document .operations).lookup id = some row → Absorbed row →
      ((World.run digests (es ++ es')).document .operations).lookup id = some row) ∧
    (∀ caller, Justified ((World.run digests es).deeds caller)) ∧
    (∀ caller caller' slug slug' request request' operation operation',
      .prepared slug request operation ∈ (World.run digests es).deeds caller →
      .prepared slug' request' operation' ∈ (World.run digests es).deeds caller' →
      request.operationId digests slug = request'.operationId digests slug' →
      request.action = request'.action ∧ request.payload = request'.payload) ∧
    (∀ slug (request request' : OperationRequest), request.executionId = request'.executionId →
      (request.operationId digests slug = request'.operationId digests slug ↔
        (if request.action = .spawn then "spawn" else request.key) =
          if request'.action = .spawn then "spawn" else request'.key)) := by
  refine ⟨?_, (Journaled.run es).justified, ?_, ?_⟩
  case refine_1 =>
    intro es' id row hk ha
    obtain ⟨row', hk', hf⟩ := World.extended_run (w := World.run digests es) id row hk
    rw [World.run, Run.run_append]
    exact hf.absorbed ha ▸ hk'
  case refine_2 =>
    intro caller caller' slug slug' request request' operation operation' hm hm' hi
    obtain ⟨ho, row, hk, ha, hp⟩ := (Journaled.run es).accepted caller _ hm
    obtain ⟨ho', row', hk', ha', hp'⟩ := (Journaled.run es).accepted caller' _ hm'
    rw [ho, hi, ← ho', hk'] at hk
    cases hk
    have hd : request.payloadDigest digests = request'.payloadDigest digests := hp.symm.trans hp'
    exact Prod.mk.inj (digests.digest_inj hd)
  case refine_3 =>
    intro slug request request' he
    simp [OperationRequest.operationId_iff, he, OperationRequest.journalKey]

def shared (action : OperationAction) (key : String) : OperationRequest :=
  ⟨"exe-1", 1, action, "\x7b\x7d", key⟩

-- One key gives two actions one identity, and so do two keys of a spawn, or a command under the key that
-- spawns go under.
theorem identity_shared :
    (shared .command "k").operationId .unary "s" = (shared .drain "k").operationId .unary "s" ∧
      (shared .spawn "k").operationId .unary "s" = (shared .spawn "l").operationId .unary "s" ∧
      (shared .spawn "k").operationId .unary "s" = (shared .command "spawn").operationId .unary "s" ∧
      (shared .command "k").action ≠ (shared .drain "k").action ∧
      (shared .spawn "k").key ≠ (shared .spawn "l").key :=
  ⟨rfl, rfl, rfl, by decide, by decide⟩

end Runtime
