import Agentihooks.Tasks.Theorems.Update

namespace Tasks

variable {ports : Ports} {s s' : State} {mark : ℤ × ℕ} {b : Bool}

def Operation.request : Operation → Option Request
  | .update op       => some op.toRequest
  | .complete op _ _ => op.map UpdateOp.toRequest
  | .review _        => none

-- A failed guard, a held block or an unmet dependency stands against the operation.
def Gated (ports : Ports) (s : State) (o : Operation) : Prop :=
  ∃ op ∈ o.request, ∃ task ∈ s.doc.task op.task, gated ports s op task

-- What may become of a task: its generation counts its owners, and it is done with its proof only.
structure Fits (ports : Ports) (doc : Document) (before after : Fields) : Prop where
  counted : Counted before after
  proved  : before .state ≠ some .done → after .state = some .done → Proved ports doc after

def Delivered (t : Fields) (p : Proposal) : Prop :=
  t .state = some .done ∧ t .prUrl = some p.prUrl ∧ t .proof = some p.proof

-- What an operation leaves as it should.
structure Kept (ports : Ports) (s : State) (e : Event) (s' : State) : Prop where
  fits      : ∀ id, ∀ t ∈ s.doc.task id, ∃ t' ∈ s'.doc.task id, Fits ports s.doc t.fields t'.fields
  refused   : ¬ Accepted ports s e → s'.Same s
  gated     : Gated ports s e.operation → s'.doc = s.doc ∧ s'.stamps = s.stamps
  ready     : ∀ op ∈ e.operation.request, ∀ t ∈ s.doc.task op.task, ∀ t' ∈ s'.doc.task op.task,
    claiming t.fields op → t'.fields .state ∈ [some .claimed, some .pr] → ready s.doc t.fields
  completed : ∀ op o actor, e.operation = .complete op o actor → Accepted ports s e →
    s.outcomes o.proposal.taskId = none →
      ((s'.outcomes o.proposal.taskId).isSome ↔ Delivered (s'.doc.row o.proposal.taskId) o.proposal)
  repeated  : ∀ op o actor, e.operation = .complete op o actor → (s.outcomes o.proposal.taskId).isSome → s'.Same s
  receipts  : ∀ id, s'.outcomes id ≠ s.outcomes id →
    s.outcomes id = none ∧ ∃ op o actor, e.operation = .complete op o actor ∧ o.proposal.taskId = id

section Update

variable {op : Request} {task : Task} {fields : Fields} {t t' : Fields} {doc : Document}

theorem Fits.of_same (hc : t' .claimedBy = t .claimedBy) (hg : t' .claimGeneration = t .claimGeneration)
    (hs : t' .state = some .done → t .state = some .done) : Fits ports doc t t' where
  counted := by simp [Counted, generation, hc, hg]
  proved  := fun hn hd => absurd (hs hd) hn

theorem Fits.refl : Fits ports doc t t :=
  .of_same rfl rfl id

theorem fits_modify (doc : Document) {id : String} {g : Fields → Fields} {at_ : Document}
    (h : ∀ t ∈ doc.task id, Fits ports at_ t.fields (g t.fields)) :
    ∀ j, ∀ t ∈ doc.task j, ∃ t' ∈ (doc.modify id g).task j, Fits ports at_ t.fields t'.fields := by
  intro j t ht
  by_cases hj : j = id
  case pos =>
    subst hj
    exact ⟨_, Document.task_modify_self ht, h t ht⟩
  case neg => exact ⟨t, (Document.task_modify_ne hj).trans ht, .refl⟩

theorem gated_congr (h : Agree fields op.fields) :
    gated ports s { op with fields } task = gated ports s op task := by
  simp only [gated, heldBlock, guarded, held, claiming, h .state rfl, h .claimedBy rfl]

theorem claiming_congr (h : Agree fields op.fields) : claiming t { op with fields } = claiming t op := by
  simp only [claiming, h .state rfl, h .claimedBy rfl]

theorem Lands.fits (h : Lands ports s op task fields) (hn : op.fields .claimGeneration = none) :
    Fits ports s.doc task.fields (applied task.fields (changed ports s task.fields fields op)) where
  counted := counted_applied ((h.agrees _ rfl).trans hn)
  proved  := by
    have same {f : Field} (hg : f ≠ .claimGeneration) (hd : f ≠ .done) :
        applied task.fields (changed ports s task.fields fields op) f = task.fields.patched fields f :=
      (applied_apply hd).trans (patched_changed hg)
    intro _ hd
    rw [same (by decide) (by decide)] at hd
    exact (proved_of_doneRefusal h.proved hd).congr (same (by decide) (by decide)) (same (by decide) (by decide))
      (same (by decide) (by decide)) (same (by decide) (by decide))

theorem Lands.ready (h : Lands ports s op task fields) (hc : claiming task.fields op) : ready s.doc task.fields := by
  have hf := h.free
  simp only [gated, held, hc, Bool.or_eq_false_iff] at hf
  simpa using hf.right

end Update

theorem step_eq {e : Event} (h : perform ports s e = .ok (b, s')) : step ports s e = s' := by
  rw [step, h]

theorem accepted_iff {e : Event} (h : perform ports s e = .ok (b, s')) : Accepted ports s e ↔ b = true := by
  simp [Accepted, h, Except.toOption]

theorem not_accepted {e : Event} {r : Raised} (h : perform ports s e = .error r) : ¬ Accepted ports s e := by
  simp [Accepted, h, Except.toOption]

-- An operation that changes nothing. Only one that repeats an outcome is accepted without a new receipt.
theorem Kept.of_same {e : Event} (h : s'.Same s)
    (hk : ∀ op o actor, e.operation = .complete op o actor → Accepted ports s e →
      (s.outcomes o.proposal.taskId).isSome) : Kept ports s e s' where
  fits      := fun id t ht => ⟨t, h.doc.symm ▸ ht, .refl⟩
  refused   := fun _ => h
  gated     := fun _ => ⟨h.doc, h.stamps⟩
  ready     := by
    intro op _ t ht t' ht' hc hs
    rw [h.doc, ht] at ht'
    cases ht'
    simp only [claiming, Bool.and_eq_true, decide_eq_true_eq] at hc
    have ho := hc.left.left.right
    simp only [List.mem_cons, List.not_mem_nil, or_false] at hs
    obtain hs | hs := hs <;> simp [hs] at ho
  completed := by
    intro op o actor he ha hn
    have hs := hk op o actor he ha
    simp [hn] at hs
  repeated  := fun _ _ _ _ _ => h
  receipts  := fun id hi => absurd (congrFun h.outcomes id) hi

section Landed

variable {e : Event} {op : Request} {asked fields : Fields} {task : Task}

theorem Lands.not_gated (hl : Lands ports s { op with fields := asked } task fields) (ha : Agree asked op.fields)
    (hr : e.operation.request = some op) : ¬ Gated ports s e.operation := by
  rintro ⟨op', ho, task', ht, hg⟩
  rw [hr] at ho
  cases ho
  cases hl.found.symm.trans ht
  rw [← gated_congr ha, hl.free] at hg
  cases hg

theorem Lands.fits_all (hl : Lands ports s op task fields) (mark : ℤ × ℕ) (hn : op.fields .claimGeneration = none) :
    ∀ id, ∀ t ∈ s.doc.task id, ∃ t' ∈ (applyUpdate s mark op (changed ports s task.fields fields op)).doc.task id,
      Fits ports s.doc t.fields t'.fields := by
  refine fits_modify s.doc fun t ht => ?_
  cases hl.found.symm.trans ht
  exact hl.fits hn

theorem Lands.ready_all (hl : Lands ports s { op with fields := asked } task fields) (ha : Agree asked op.fields)
    (hr : e.operation.request = some op) :
    ∀ op' ∈ e.operation.request, ∀ t ∈ s.doc.task op'.task, claiming t.fields op' → Tasks.ready s.doc t.fields := by
  intro op' ho t ht hc
  rw [hr] at ho
  cases ho
  cases hl.found.symm.trans ht
  exact hl.ready ((claiming_congr ha).trans hc)

end Landed

section Update

variable {op : UpdateOp} {task : Task} {fields : Fields}

-- A quote relays the operator's rank for the task.
structure Relays (ports : Ports) (s : State) (op : Request) (quote rank : String) (task : Task) : Prop where
  named   : canonical ((op.fields .rank).getD "") = .ok rank
  found   : s.doc.task op.task = some task
  relayed : relayRefusal s op.by_ rank (relayed ports s op.by_ quote) = none
  urgent  : urgentRefusal ports { task with fields := task.fields.put .rank rank } s.doc = none

theorem relayRank_cases {op : Request} {quote : String} (h : relayRank ports s mark op quote = .ok (b, s')) :
    s'.Same s ∨ b = true ∧ ∃ rank task, Relays ports s op quote rank task ∧
      s'.doc = s.doc.modify op.task (·.put .rank rank) ∧ s'.outcomes = s.outcomes := by
  unfold relayRank at h
  split at h
  case h_1         => cases h
  case h_2 rank hr =>
    split at h
    case h_1         => cases h; exact .inl State.same_refuse
    case h_2 task ht =>
      split at h
      case h_1     => cases h; exact .inl State.same_refuse
      case h_2 hrr =>
        split at h
        case h_1    => cases h; exact .inl State.same_refuse
        case h_2 hu =>
          cases h
          exact .inr ⟨rfl, rank, task, ⟨hr, ht, hrr, hu⟩, rfl, rfl⟩

theorem apply_cases (h : apply ports s mark op = .ok (b, s')) :
    s'.Same s ∨
    (b = true ∧ ∃ asked task fields, Agree asked op.fields ∧
      Lands ports s { op.toRequest with fields := asked } task fields ∧
      s' = applyUpdate s mark { op.toRequest with fields := asked }
        (changed ports s task.fields fields { op.toRequest with fields := asked })) ∨
    (b = true ∧ ∃ quote ∈ op.quote, ∃ rank task, Relays ports s op.toRequest quote rank task ∧
      s'.doc = s.doc.modify op.task (·.put .rank rank) ∧ s'.outcomes = s.outcomes) := by
  unfold apply at h
  split at h
  case h_1 quote hq =>
    exact (relayRank_cases h).imp_right fun hr => .inr ⟨hr.left, quote, hq, hr.right⟩
  case h_2 =>
    split_ifs at h
    · cases h; exact .inl .refl
    · extract_lets op' at h
      split at h
      case h_1           => cases h; exact .inl State.same_refuse
      case h_2 asked hset =>
        extract_lets op'' at h
        have agrees : Agree asked op.fields := (agree_setSlice hset).trans agree_withPlanSlice
        split at h
        case h_1 => cases h; exact .inl State.same_refuse
        case h_2 =>
          obtain ⟨_, hu⟩ | ⟨_, rfl, _⟩ | ⟨ht, task, fields, hl, he⟩ := update_cases h
          · exact .inl hu
          · exact .inl .refl
          · exact .inr (.inl ⟨ht, asked, task, fields, agrees, hl, he⟩)

theorem update_claimGeneration : op.fields .claimGeneration = none :=
  op.updatable _ rfl

theorem kept_update (hs : ∀ quote ∈ op.quote, ∀ rank task, Relays ports s op.toRequest quote rank task →
      guarded task.fields op.toRequest = false)
    (h : apply ports s mark op = .ok (b, s')) : Kept ports s ⟨.update op, mark⟩ s' := by
  have hp : perform ports s ⟨.update op, mark⟩ = .ok (b, s') := h
  obtain hu | ⟨rfl, asked, task, fields, ha, hl, rfl⟩ | ⟨rfl, quote, hq, rank, task, hr, hd, ho⟩ := apply_cases h
  · exact .of_same hu fun _ _ _ he => by cases he
  · exact {
      fits      := hl.fits_all mark ((ha _ rfl).trans update_claimGeneration)
      refused   := fun hn => absurd ((accepted_iff hp).mpr rfl) hn
      gated     := fun hg => absurd hg (hl.not_gated ha rfl)
      ready     := fun op' hr t ht _ _ hc _ => hl.ready_all ha rfl op' hr t ht hc
      completed := fun _ _ _ he => by cases he
      repeated  := fun _ _ _ he => by cases he
      receipts  := fun _ hn => absurd rfl hn }
  · have only : ∀ f, f ≠ Field.rank → op.fields f = none := op.relays (Option.isSome_of_mem hq)
    exact {
      fits      := by
        rw [hd]
        exact fits_modify s.doc fun t _ => .of_same rfl rfl id
      refused   := fun hn => absurd ((accepted_iff hp).mpr rfl) hn
      gated     := by
        rintro ⟨op', he, task', ht, hg⟩
        cases he
        cases hr.found.symm.trans ht
        simp [gated, heldBlock, held, claiming, only .state, hs quote hq rank task hr] at hg
      ready     := by
        intro op' he t _ t' _ hc _
        cases he
        simp [claiming, only .state] at hc
      completed := fun _ _ _ he => by cases he
      repeated  := fun _ _ _ he => by cases he
      receipts  := fun id hn => absurd (congrFun ho id) hn }

end Update

section Complete

variable {op : UpdateOp} {o : Outcome} {actor sha : String} {task : Task}

-- What a delivery has to match before its update is made.
structure Completes (s : State) (op : UpdateOp) (o : Outcome) (actor sha : String) (task : Task) : Prop where
  merged   : o.mergeSha = some sha ∧ sha ≠ ""
  found    : s.doc.task o.proposal.taskId = some task
  names    : op.task = o.proposal.taskId
  by_      : op.by_ = actor
  fields   : op.fields = o.proposal.fields
  fresh    : s.outcomes o.proposal.taskId = none
  revision : task = o.proposal.taskRevision
  owned    : task.fields .claimedBy = some actor
  prUrl    : task.fields .prUrl = some o.proposal.prUrl
  verified : o.phase = .externallyVerified

theorem completeOutcome_cases {op : Option UpdateOp} (h : completeOutcome ports s mark op o actor = .ok (b, s')) :
    (s'.Same s ∧ (b = true → (s.outcomes o.proposal.taskId).isSome)) ∨
    (b = true ∧ ∃ op' ∈ op, ∃ sha task u, Completes s op' o actor sha task ∧
      update ports s mark op'.toRequest = .ok (true, u) ∧
      s' = { u with outcomes := Function.update u.outcomes o.proposal.taskId (some (o.receipt sha)) }) := by
  unfold completeOutcome at h
  split at h
  case h_1          => cases h
  case h_2 sha hsha =>
    split at h
    case h_2 => cases h; exact .inl ⟨State.same_refuse, nofun⟩
    case h_1 task op' ht =>
      split at h
      case isTrue     => cases h; exact .inl ⟨State.same_refuse, nofun⟩
      case isFalse hi =>
        simp only [not_or, not_not] at hi
        split at h
        case h_1 known hk =>
          split_ifs at h
          · cases h; exact .inl ⟨.refl, fun _ => by simp [hk]⟩
          · cases h; exact .inl ⟨State.same_refuse, nofun⟩
        case h_2 hk =>
          split at h
          case isTrue     => cases h; exact .inl ⟨State.same_refuse, nofun⟩
          case isFalse hr =>
            simp only [not_or, not_not] at hr
            have hc : Completes s op' o actor sha task :=
              ⟨⟨hsha, hr.right.right.right.right⟩, ht, hi.left, hi.right.left, hi.right.right, hk, hr.left,
                hr.right.left, hr.right.right.left, hr.right.right.right.left⟩
            split at h
            case h_1 u hu =>
              cases h
              exact .inr ⟨rfl, op', rfl, sha, task, u, hc, hu, rfl⟩
            case h_2 hu =>
              obtain ⟨rfl, hsame⟩ | ⟨rfl, _⟩ | ⟨rfl, _⟩ := update_cases h
              · exact .inl ⟨hsame, nofun⟩
              · exact absurd h (hu _)
              · exact absurd h (hu _)

-- A delivery that is recorded, once it is known what becomes of its task.
theorem Completes.kept (hc : Completes s op o actor sha task)
    (hp : perform ports s ⟨.complete (some op) o actor, mark⟩ = .ok (true, s'))
    (ho : s'.outcomes = Function.update s.outcomes o.proposal.taskId (some (o.receipt sha)))
    (hf : ∀ id, ∀ t ∈ s.doc.task id, ∃ t' ∈ s'.doc.task id, Fits ports s.doc t.fields t'.fields)
    (hg : gated ports s op.toRequest task → s'.doc = s.doc ∧ s'.stamps = s.stamps)
    (hd : Delivered (s'.doc.row o.proposal.taskId) o.proposal) :
    Kept ports s ⟨.complete (some op) o actor, mark⟩ s' where
  fits      := hf
  refused   := fun hn => absurd ((accepted_iff hp).mpr rfl) hn
  gated     := by
    rintro ⟨op', he, task', ht, hgate⟩
    cases he
    rw [hc.names] at ht
    cases hc.found.symm.trans ht
    exact hg hgate
  ready     := by
    intro op' he t _ t' _ hclaim _
    cases he
    have hs : op.fields .state = some .done := congrFun hc.fields .state
    simp [claiming, hs] at hclaim
  completed := by
    intro _ _ _ he _ _
    cases he
    simp [ho, hd]
  repeated  := by
    intro _ _ _ he hs
    cases he
    simp [hc.fresh] at hs
  receipts  := by
    intro id hn
    by_cases hi : id = o.proposal.taskId
    case pos => exact hi ▸ ⟨hc.fresh, _, _, _, rfl, rfl⟩
    case neg => exact absurd ((congrFun ho id).trans (Function.update_of_ne hi ..)) hn

theorem row_eq {doc : Document} {id : String} {t : Task} (h : doc.task id = some t) : doc.row id = t.fields := by
  rw [Document.row, h, Option.elim_some]

theorem Lands.delivers {fields : Fields} (hl : Lands ports s op.toRequest task fields)
    (hf : op.fields = o.proposal.fields) :
    Delivered (applied task.fields (changed ports s task.fields fields op.toRequest)) o.proposal := by
  have field {f : Field} {v : f.Value} (hcore : f.core = true) (hg : f ≠ .claimGeneration) (hd : f ≠ .done)
      (hv : o.proposal.fields f = some v) :
      applied task.fields (changed ports s task.fields fields op.toRequest) f = some v := by
    have he : fields f = some v := (hl.agrees f hcore).trans ((congrFun hf f).trans hv)
    rw [applied_apply hd, patched_changed hg]
    exact PartialRecord.patched_some he
  exact ⟨field rfl (by decide) (by decide) rfl, field rfl (by decide) (by decide) rfl,
    field rfl (by decide) (by decide) rfl⟩

theorem kept_complete {op : Option UpdateOp}
    (hs : ∀ op' ∈ op, ∀ sha task, Completes s op' o actor sha task → gated ports s op'.toRequest task →
      Delivered task.fields o.proposal)
    (h : completeOutcome ports s mark op o actor = .ok (b, s')) : Kept ports s ⟨.complete op o actor, mark⟩ s' := by
  have hp : perform ports s ⟨.complete op o actor, mark⟩ = .ok (b, s') := h
  obtain ⟨hsame, hk⟩ | ⟨rfl, op', ho, sha, task, u, hc, hu, rfl⟩ := completeOutcome_cases h
  · refine .of_same hsame fun _ _ _ he ha => ?_
    cases he
    exact hk ((accepted_iff hp).mp ha)
  · cases ho
    obtain ⟨hn, _⟩ | ⟨_, rfl, task', ht, hg⟩ | ⟨_, task', fields, hl, rfl⟩ := update_cases hu
    · cases hn
    · rw [hc.names] at ht
      cases hc.found.symm.trans ht
      refine hc.kept hp rfl (fun id t ht => ⟨t, ht, .refl⟩) (fun _ => ⟨rfl, rfl⟩) ?_
      rw [row_eq hc.found]
      exact hs op' rfl sha task hc hg
    · have hfound := hl.found
      rw [hc.names] at hfound
      cases hc.found.symm.trans hfound
      refine hc.kept hp rfl ?_ (fun hg => ?_) ?_
      · exact hl.fits_all mark update_claimGeneration
      · rw [hl.free] at hg
        cases hg
      · have hrow : (s.doc.modify op'.task (applied · (changed ports s task.fields fields op'.toRequest))).row op'.task =
            applied task.fields (changed ports s task.fields fields op'.toRequest) :=
          row_eq (Document.task_modify_self hl.found)
        rw [← hc.names]
        exact hrow.symm ▸ hl.delivers hc.fields

end Complete

section Review

variable {op : ReviewOp}

theorem mem_of_reopened {doc : Document} {phase : String} {record : Review} {plan : Task}
    (h : reopened doc phase record = some plan) : plan ∈ doc.tasks := by
  unfold reopened at h
  split_ifs at h
  exact List.mem_of_find?_eq_some (Option.filter_eq_some_iff.mp h).left

theorem fits_reopen {doc : Document} {t : Fields} (h : t .claimedBy = some "") : Fits ports doc t (reopen t) :=
  .of_same h.symm rfl fun hd => by cases hd

theorem decided_fits {doc : Document} {phase by_ : String} {record : Review}
    (h : ∀ plan ∈ reopened s.doc phase record, plan.fields .claimedBy = some "") :
    ∀ id, ∀ t ∈ s.doc.task id, ∃ t' ∈ (decided s mark phase record by_).doc.task id,
      Fits ports doc t.fields t'.fields := by
  unfold decided
  split_ifs
  · exact fun id t ht => ⟨t, ht, .refl⟩
  · cases hr : reopened s.doc phase record
    case none      => exact fun id t ht => ⟨t, ht, .refl⟩
    case some plan =>
      refine fits_modify s.doc fun t ht => fits_reopen ?_
      have hm : plan ∈ s.doc.tasks := mem_of_reopened hr
      cases (Document.task_of_mem hm).symm.trans ht
      exact h plan hr

theorem decided_outcomes {phase by_ : String} {record : Review} :
    (decided s mark phase record by_).outcomes = s.outcomes := by
  unfold decided
  split_ifs
  · rfl
  · cases reopened s.doc phase record <;> rfl

-- A review that leaves the plan of its phase, or sends back one that nobody holds.
theorem kept_review
    (hs : ∀ phase ∈ s.doc.phase op.phase, ∀ plan ∈ reopened s.doc op.phase (reviewRecord phase op mark.1),
      plan.fields .claimedBy = some "")
    (h : review s mark op = .ok (b, s')) : Kept ports s ⟨.review op, mark⟩ s' := by
  have hp : perform ports s ⟨.review op, mark⟩ = .ok (b, s') := h
  unfold review at h
  split at h
  case h_1           => cases h; exact .of_same .refl fun _ _ _ he => by cases he
  case h_2 phase hph =>
    extract_lets record phases _ stored after at h
    have hdoc : after.doc = { s.doc with phases } := by
      unfold after
      split_ifs <;> rfl
    have hout : after.outcomes = s.outcomes := by
      unfold after
      split_ifs <;> rfl
    cases h
    exact {
      fits      := fun id t ht => by
        refine decided_fits (fun plan hr => ?_) id t ?_
        · rw [hdoc] at hr
          exact hs phase hph plan hr
        · rw [hdoc]
          exact ht
      refused   := fun hn => absurd ((accepted_iff hp).mpr rfl) hn
      gated     := by
        rintro ⟨_, he, _⟩
        cases he
      ready     := fun _ he => by cases he
      completed := fun _ _ _ he => by cases he
      repeated  := fun _ _ _ he => by cases he
      receipts  := fun id hn => absurd (congrFun (decided_outcomes.trans hout) id) hn }

end Review

-- What keeps the claims in order: no guard fails a relayed rank, which the relay does not look at; a gated delivery
-- finds its task delivered already; and a plan that a review sends back is held by nobody.
def Sound (ports : Ports) (s : State) (e : Event) : Prop :=
  match e.operation with
  | .update op =>
    ∀ quote ∈ op.quote, ∀ rank task, Relays ports s op.toRequest quote rank task →
      guarded task.fields op.toRequest = false
  | .complete op o actor =>
    ∀ op' ∈ op, ∀ sha task, Completes s op' o actor sha task → gated ports s op'.toRequest task →
      Delivered task.fields o.proposal
  | .review op =>
    ∀ phase ∈ s.doc.phase op.phase, ∀ plan ∈ reopened s.doc op.phase (reviewRecord phase op e.mark.1),
      plan.fields .claimedBy = some ""

theorem kept_step {e : Event} (hs : Sound ports s e) : Kept ports s e (step ports s e) := by
  obtain ⟨operation, mark⟩ := e
  cases hp : perform ports s ⟨operation, mark⟩
  case error r =>
    have he : step ports s ⟨operation, mark⟩ = s := by rw [step, hp]
    rw [he]
    exact .of_same .refl fun _ _ _ _ ha => absurd ha (not_accepted hp)
  case ok r =>
    obtain ⟨b, s'⟩ := r
    rw [step_eq hp]
    cases operation
    case update   => exact kept_update hs hp
    case complete => exact kept_complete hs hp
    case review   => exact kept_review hs hp

-- From any ledger, whatever is done to its tasks.
theorem claims_run (ports : Ports) (s : State) (es : List Event)
    (h : Run.Along (step ports) (Sound ports) s es) :
    Run.Along (step ports) (fun s e => Kept ports s e (step ports s e)) s es :=
  h.imp fun _ _ => kept_step

section Ledger

def plain : Ports where
  laneOf    := fun _ => "master"
  verified  := fun _ quote => quote
  claimHold := fun _ _ => ""
  taskSlice := fun _ _ _ _ => .error "no plan"

def code : Task where
  id     := "t1"
  fields := ((Fields.put .empty .state .pr).put .claimedBy "eng-1").put .prUrl "https://forge/1"
  others := .empty

def plan : Task where
  id     := "p1"
  fields :=
    (((Fields.put .empty .state .claimed).put .claimedBy "plan-1").put .phase "first").put .kind .plan |>.put .lane .plan
  others := .empty

def ledger : State where
  doc      := ⟨[code, plan], [⟨"first", none, none, none, .empty⟩], [], [], by decide⟩
  stamps   := fun _ => none
  outcomes := fun _ => none
  roles    := fun _ => some "orchestrator"
  refused  := []

def outcome : Outcome where
  operationId := "o1"
  providerId  := "PR_1"
  proposal    := ⟨"t1", "https://forge/1", "abc", ∅, code⟩
  phase       := .externallyVerified
  mergeSha    := some "def"

def delivery (ifState : List TaskState) : UpdateOp where
  task               := "t1"
  by_                := "eng-1"
  fields             := outcome.proposal.fields
  ifState            := ifState
  ifMatch            := fun _ => none
  quote              := none
  ifPlanLinesMissing := false
  updatable          := by decide +kernel
  relays             := nofun

def deliver (ifState : List TaskState) : Event :=
  ⟨.complete (some (delivery ifState)) outcome "eng-1", (1, 1)⟩

def sendBack : Event :=
  ⟨.review ⟨"first", "operator", .sentBack, none, some "too long", none, none⟩, (1, 1)⟩

def relay : Event where
  operation := .update {
    task               := "t1"
    by_                := "lead"
    fields             := Fields.put .empty .rank "urgent"
    ifState            := [.open_]
    ifMatch            := fun _ => none
    quote              := some "make this urgent"
    ifPlanLinesMissing := false
    updatable          := by decide +kernel
    relays             := by decide +kernel }
  mark := (1, 1)

theorem claims_run_delivered :
    Run.Along (step plain) (fun s e => Kept plain s e (step plain s e)) ledger [deliver [.pr]] := by
  refine claims_run plain ledger [deliver [.pr]] ⟨fun op ho sha task hc hg => ?_, trivial⟩
  cases ho
  cases hc.found
  exact absurd hg (by decide +kernel)

-- A plan is sent back under its owner, a delivery behind a guard leaves a receipt, and a guard does not hold a relay.
theorem claims_lost :
    (¬ Run.Along (step plain) (fun s e => Kept plain s e (step plain s e)) ledger [sendBack]) ∧
    (¬ Run.Along (step plain) (fun s e => Kept plain s e (step plain s e)) ledger [deliver [.open_]]) ∧
    (¬ Run.Along (step plain) (fun s e => Kept plain s e (step plain s e)) ledger [relay]) := by
  refine ⟨fun h => ?_, fun h => ?_, fun h => ?_⟩
  · obtain ⟨t', ht, hf⟩ := h.left.fits "p1" plan (by decide +kernel)
    have hc := hf.counted
    rw [← row_eq ht] at hc
    exact absurd hc (by unfold Counted; decide +kernel)
  · have hd := (h.left.completed _ outcome _ rfl (by decide +kernel) rfl).mp (by decide +kernel)
    exact absurd hd (by unfold Delivered; decide +kernel)
  · have hg := h.left.gated ⟨_, rfl, code, by decide +kernel, by decide +kernel⟩
    have hr := congrArg (fun doc => doc.row "t1" .rank) hg.left
    exact absurd hr (by decide +kernel)

end Ledger

end Tasks
