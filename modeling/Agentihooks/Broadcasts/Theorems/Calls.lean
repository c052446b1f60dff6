import Agentihooks.Broadcasts.Theorems.Published

namespace Broadcasts

section Retry

variable {slug fresh fresh' : String} {s s' : State} {q q' : Publication} {now now' : ℤ} {b : Broadcast} {es : List Event}

-- The same publication under the same operation id, by the same publisher.
structure Retries (q' q : Publication) : Prop where
  content     : q'.content = q.content
  broadcastId : q'.broadcastId = q.broadcastId
  ttlSeconds  : q'.ttlSeconds = q.ttlSeconds
  owner       : ownerOf q'.author = ownerOf q.author
  operationId : q'.operationId = q.operationId

-- The broadcast is stored as it would be published, and the operations hold nothing of it.
def State.Unchanged (s : State) (q : Publication) (fresh : String) (now : ℤ) (b : Broadcast) : Prop :=
  s.recorded q = none ∧ s.broadcasts.lookup (q.id fresh) = some b ∧ q.Same b ∧ now < b.expiresMs

-- A retry answers with the first call's broadcast and writes nothing, exactly when publishing is not frozen and the first
-- call did not find its broadcast stored unchanged, or the retry still does.
def Retried (slug : String) (s : State) : Prop :=
  ∀ q fresh now b s₁, s.commit slug q fresh now = .ok (b, s₁) → q.operationId ≠ "" →
    ∀ es q' fresh' now', Retries q' q →
      let s₂ := Run.run (step slug) s₁ es
      s₂.commit slug q' fresh' now' = .ok (b, s₂) ↔
        s₂.frozen = false ∧ (¬s.Unchanged q fresh now b ∨ s₂.Unchanged q' fresh' now' b)

theorem Retries.recorded (h : Retries q' q) : s.recorded q' = s.recorded q := by
  have hoperation : q'.operation = q.operation := by rw [Publication.operation, h.owner, h.operationId, Publication.operation]
  rw [State.recorded, State.recorded, h.operationId, hoperation]

theorem Retries.same (h : Retries q' q) : q'.Same b ↔ q.Same b := by
  simp only [Publication.Same, h.content, h.ttlSeconds]

theorem recorded_of_grows (hne : q.operationId ≠ "") (h : s.recorded q = some b) (hg : Grows s s') :
    s'.recorded q = some b := by
  simp only [State.recorded, if_neg hne] at h ⊢
  exact hg.operations _ b h

-- The operations hold the broadcast that a publication has built.
theorem recorded_publish (hne : q.operationId ≠ "") : (s.publish q b).recorded q = some b := by
  simp only [State.recorded, State.publish, if_neg hne, Finmap.lookup_insert]

theorem commit_of_recorded (hname : isName q.operationId = true) (hfrozen : s.frozen = false) (hr : s.recorded q = some b)
    (hs : q.Same b) (hid : q.broadcastId = "" ∨ q.broadcastId = b.broadcastId) : s.commit slug q fresh now = .ok (b, s) := by
  unfold State.recorded at hr
  have hno : ¬(¬q.Same b ∨ q.broadcastId ≠ "" ∧ q.broadcastId ≠ b.broadcastId) := by
    rintro (h | ⟨hne, hdiffers⟩)
    · exact h hs
    · exact hid.elim hne hdiffers
  simp only [State.commit, hname, not_true_eq_false, and_false, if_false, hfrozen, hr, if_neg hno, Bool.false_eq_true]

theorem commit_of_unchanged (hname : isName q.operationId = true) (hfrozen : s.frozen = false)
    (h : s.Unchanged q fresh now b) (ho : ownerOf b.author = ownerOf q.author) : s.commit slug q fresh now = .ok (b, s) := by
  obtain ⟨hr, hb, hs, hlt⟩ := h
  unfold State.recorded at hr
  have hbrain : b.brainId = q.content.brainId := congrArg Content.brainId hs.left
  simp [State.commit, hname, hfrozen, hr, hb, ho, hbrain, hs, hlt, Option.filter_some]

-- A call that writes nothing has found its answer in the operations or among the stored broadcasts.
theorem Committed.still (h : Committed slug s q fresh now b s') (he : s' = s) :
    s.recorded q = some b ∨ s.Unchanged q fresh now b := by
  cases h with
  | replayed _ hr _ _           => exact .inl hr
  | unchanged _ hr hb hs hlt _  => exact .inr ⟨hr, hb, hs, hlt⟩
  | built                       =>
    have hlength := congrArg (List.length ∘ State.history) he
    simp [State.publish] at hlength

-- An operation does not come to hold a broadcast that was stored before.
theorem not_recorded (hs : Sound s) (hb : s.broadcasts.lookup b.broadcastId = some b) {op : String × String}
    (hn : s.operations.lookup op ≠ some b) : (Run.run (step slug) s es).operations.lookup op ≠ some b := by
  let I (t : State) : Prop := Sound t ∧ Grows s t ∧ t.operations.lookup op ≠ some b
  have hstep (t : State) (e : Event) (ht : I t) : I (step slug t e) := by
    obtain ⟨ht, hgrows, hnone⟩ := ht
    refine ⟨ht.step.left, hgrows.trans ht.step.right, fun hop => ?_⟩
    have h := steps slug t e
    generalize step slug t e = t' at h hop
    cases h with
    | publish q fresh now hr =>
      simp only [State.publish] at hop
      split at hop
      case isTrue  => exact hnone hop
      case isFalse =>
        by_cases hq : op = q.operation
        case pos =>
          -- What is built has a higher revision than the stored one of its id.
          subst hq
          have hbuilt := Option.some.inj ((Finmap.lookup_insert _).symm.trans hop)
          have hid : q.id fresh = b.broadcastId := congrArg Broadcast.broadcastId hbuilt
          have hrevision : t.numbered (q.id fresh) = b.revision := congrArg Broadcast.revision hbuilt
          obtain ⟨b', hb', hle⟩ := hgrows.broadcasts _ b hb
          rw [numbered_eq, hid, hb', Option.elim_some] at hrevision
          omega
        case neg => exact hnone ((Finmap.lookup_insert_of_ne _ hq).symm.trans hop)
    | _ => exact hnone hop
  have hrun : I (Run.run (step slug) s es) := Run.invariant hstep ⟨hs, .refl, hn⟩
  exact hrun.right.right

-- A first call that did not find its broadcast unchanged is recorded.
theorem Committed.recorded (h : Committed slug s q fresh now b s') (hne : q.operationId ≠ "")
    (hu : ¬s.Unchanged q fresh now b) :
    s'.recorded q = some b ∧ q.Same b ∧ (q.broadcastId = "" ∨ q.broadcastId = b.broadcastId) := by
  cases h with
  | replayed _ hr hs hid       => exact ⟨hr, hs, hid⟩
  | unchanged _ hr hb hs hlt _ => exact absurd ⟨hr, hb, hs, hlt⟩ hu
  | built hr                   =>
    refine ⟨recorded_publish hne, ⟨rfl, by simp [Publication.build]⟩, ?_⟩
    by_cases hid : q.broadcastId = ""
    case pos => exact .inl hid
    case neg => exact .inr (if_neg hid).symm

theorem Sound.retried (hs : Sound s) : Retried slug s := by
  intro q fresh now b s₁ h hne es q' fresh' now' hq s₂
  have hne' : q'.operationId ≠ "" := hq.operationId ▸ hne
  have hname : isName q'.operationId = true := hq.operationId ▸ (named_of_commit h).left hne
  have hgrows : Sound s₁ ∧ Grows s₁ s₂ := by
    have hs₁ : Sound s₁ := by
      cases committed h with
      | replayed  => exact hs
      | unchanged => exact hs
      | built hr  => exact hs.publish hr
    exact ⟨hs₁, hs₁.grows⟩
  by_cases hu : s.Unchanged q fresh now b
  case neg =>
    -- The first call is recorded, and stays so.
    obtain ⟨hr, hsame, hid⟩ := (committed h).recorded hne hu
    have hr' : s₂.recorded q' = some b := hq.recorded.trans (recorded_of_grows hne hr hgrows.right)
    refine ⟨fun h' => ⟨(named_of_commit h').right, .inl hu⟩, fun hcond => ?_⟩
    exact commit_of_recorded hname hcond.left hr' (hq.same.mpr hsame) (hq.broadcastId ▸ hid)
  case pos =>
    obtain ⟨hr, hb, hsame, _⟩ := hu
    obtain ⟨hid, _⟩ := hs.stored _ b hb
    have hfirst : s₁ = s ∧ ownerOf b.author = ownerOf q.author := by
      cases committed h with
      | replayed _ hr' _ _     => cases hr.symm.trans hr'
      | unchanged _ _ _ _ _ ho => exact ⟨rfl, ho⟩
      | built                  =>
        have hnumber : s.numbered (q.id fresh) = (s.broadcasts.lookup (q.id fresh)).elim 0 Broadcast.revision + 1 := numbered_eq
        rw [hb, Option.elim_some] at hnumber
        change s.numbered (q.id fresh) = s.numbered (q.id fresh) + 1 at hnumber
        omega
    obtain ⟨rfl, ho⟩ := hfirst
    constructor
    case mp =>
      intro h'
      refine ⟨(named_of_commit h').right, .inr ?_⟩
      obtain hr' | hu' := (committed h').still rfl
      · rw [hq.recorded, State.recorded, if_neg hne] at hr'
        rw [State.recorded, if_neg hne] at hr
        have hn : s₁.operations.lookup q.operation ≠ some b := by simp [hr]
        exact absurd hr' (not_recorded hs (hid ▸ hb) hn)
      · exact hu'
    case mpr =>
      rintro ⟨hfrozen, hcond⟩
      obtain hno | hu' := hcond
      · exact absurd ⟨hr, hb, hsame, by assumption⟩ hno
      · exact commit_of_unchanged hname hfrozen hu' (ho.trans hq.owner.symm)

end Retry

section Delivered

variable {slug : String} {s s' : State} {c c' : Claim} {ds ds' : List Delivery} {d d' : Delivery} {es : List Event}
variable {b b' : Broadcast} {seat id : String}

-- Of two claims of a seat that are answered with one once revision the later is a replay, of the claim that received it.
def Once (slug : String) (s : State) : Prop :=
  ∀ (c : Claim) ds s₁, c.run slug s = .ok (ds, s₁) → ∀ d ∈ ds, d.broadcast.policy = .once →
    ∀ es (c' : Claim), c'.grant.seatId = c.grant.seatId → ∀ ds' s₃, c'.run slug (Run.run (step slug) s₁ es) = .ok (ds', s₃) →
      ∀ d' ∈ ds', d'.broadcast.broadcastId = d.broadcast.broadcastId → d'.broadcast.revision = d.broadcast.revision →
        ∃ last, c'.remembered (Run.run (step slug) s₁ es) = some last ∧ last.deliveries = ds' ∧
          (c.remembered s = none → last.claimId = c.claimId ∧ last.generation = c.grant.generation)

-- A revision that a seat has acknowledged is not handed to it by a claim that is no replay.
def Acked (slug : String) (s : State) : Prop :=
  ∀ grant id revision first s₁, s.acknowledge grant id revision = .ok (first, s₁) →
    ∀ es (c : Claim), c.grant.seatId = grant.seatId → c.remembered (Run.run (step slug) s₁ es) = none →
      ∀ ds s₃, c.run slug (Run.run (step slug) s₁ es) = .ok (ds, s₃) →
        ∀ d ∈ ds, d.broadcast.broadcastId = id → (d.broadcast.revision : ℤ) ≠ revision

-- After a claim the calls of the seat's older generations are refused.
def Fenced (slug : String) (s : State) : Prop :=
  ∀ (c : Claim) ds s₁, c.run slug s = .ok (ds, s₁) → ∀ es,
    let s₂ := Run.run (step slug) s₁ es
    (∀ c' : Claim, c'.grant.seatId = c.grant.seatId → c'.grant.generation < c.grant.generation →
      ∃ refusal, c'.run slug s₂ = .error refusal) ∧
    ∀ grant id revision, grant.seatId = c.grant.seatId → grant.generation < c.grant.generation →
      s₂.acknowledge grant id revision = .error .staleGeneration

-- What a claim hands out matches its grant and its channels; a replay hands out what a claim of the same seat, generation
-- and claim id was handed before, and that matched.
def Matched (slug : String) (es : List Event) : Prop :=
  ∀ (c : Claim) ds s₁, c.run slug (Run.run (step slug) empty es) = .ok (ds, s₁) →
    (∀ d ∈ ds, State.Matches slug d.broadcast c.grant c.channels c.now) ∨
    ∃ (es₁ : List Event) (c₀ : Claim) (s₀ : State), es₁ <+: es ∧ c₀.grant.seatId = c.grant.seatId ∧ c₀.claimId = c.claimId ∧
      c₀.grant.generation = c.grant.generation ∧ c₀.run slug (Run.run (step slug) empty es₁) = .ok (ds, s₀) ∧
      ∀ d ∈ ds, State.Matches slug d.broadcast c₀.grant c₀.channels c₀.now

theorem Claimed.sound (h : Claimed slug s c ds s') (hg : s.admitted c.grant.seatId ≤ c.grant.generation) (hs : Sound s) :
    Sound s' := by
  cases h with
  | replayed => exact hs
  | wrote    => exact hs.claim hg
  | found    => exact hs

-- Whatever a claim is answered with, the seat has been handed.
theorem Claimed.handed (h : Claimed slug s c ds s') (hs : Sound s) (hd : d ∈ ds) :
    d.broadcast ∈ s'.history ∧ Handed s' c.grant.seatId d.broadcast := by
  cases h with
  | replayed last hr  =>
    unfold Claim.remembered at hr
    split at hr
    case isTrue  => cases hr
    case isFalse => exact hs.remembered _ last (Option.filter_eq_some_iff.mp hr).left d hd
  | wrote hr          =>
    obtain ⟨id, b, hb, hdue, rfl⟩ := mem_found.mp hd
    obtain ⟨rfl, hmem⟩ := hs.stored id b hb
    obtain ⟨r, hr, hrevision⟩ := handed_found hs hb hdue
    refine ⟨hmem, r, ?_, hrevision.ge⟩
    simp only [Claim.wrote, Function.update_self]
    exact hr
  | found hr hc hid _ =>
    obtain ⟨id, b, hb, hdue, rfl⟩ := mem_found.mp hd
    obtain ⟨rfl, hmem⟩ := hs.stored id b hb
    obtain ⟨r, hr, hrevision⟩ := handed_found hs hb hdue
    rw [hc, Finmap.empty_union] at hr
    exact ⟨hmem, r, hr, hrevision.ge⟩

-- What a seat was handed is due again only as the stored revision, unacknowledged and not once.
theorem due_again (hs : Sound s) (hb : s.broadcasts.lookup id = some b) (hdue : c.Due slug s b) {r : Record}
    (hr : (s.deliveries c.grant.seatId).lookup id = some r) (hle : b.revision ≤ r.revision) :
    r.revision = b.revision ∧ r.acked = false ∧ b.policy ≠ .once := by
  obtain ⟨rfl, _⟩ := hs.stored id b hb
  obtain ⟨b', hb', hle'⟩ := hs.records _ _ r hr
  obtain rfl := Option.some.inj (hb.symm.trans hb')
  have heq : r.revision = b.revision := le_antisymm hle' hle
  have hany := hdue.right
  rw [record_eq_some.mpr ⟨hr, heq⟩] at hany
  simp only [Option.any_some, decide_eq_true_eq, not_or] at hany
  exact ⟨heq, by simpa using hany.left, hany.right⟩

-- Broadcasts of one id and revision are the same.
theorem Sound.unique (hs : Sound s) (hb : b ∈ s.history) (hb' : b' ∈ s.history) (hid : b'.broadcastId = b.broadcastId)
    (hrevision : b'.revision = b.revision) : b' = b := by
  have hnodup : ((s.history.filter (·.broadcastId = b.broadcastId)).map Broadcast.revision).Nodup := by
    rw [hs.numbered]
    exact List.nodup_range'
  exact List.inj_on_of_nodup_map hnodup (List.mem_filter.mpr ⟨hb', by simp [hid]⟩) (List.mem_filter.mpr ⟨hb, by simp⟩) hrevision

theorem claim_found (h : c.run slug s = .ok (ds, s')) (hr : c.remembered s = none) : ds = c.found slug s := by
  cases (claimed h).right with
  | replayed last hr' => cases hr.symm.trans hr'
  | wrote             => rfl
  | found             => rfl

theorem remembered_eq_some {last : Answer} (h : c.remembered s = some last) : s.claims.lookup c.grant.seatId = some last ∧
    last.claimId = c.claimId ∧ last.generation = c.grant.generation := by
  unfold Claim.remembered at h
  split at h
  case isTrue  => cases h
  case isFalse => simpa [Option.filter_eq_some_iff] using h

theorem Sound.acked (hs : Sound s) : Acked slug s := by
  rintro grant id revision first s₁ h es c hseat hr ds s₃ hc d hd rfl hrevision
  obtain ⟨hs₁, record, hl, hrecord, hacked⟩ : Sound s₁ ∧ ∃ record, (s₁.deliveries grant.seatId).lookup
      d.broadcast.broadcastId = some record ∧ (record.revision : ℤ) = revision ∧ record.acked = true := by
    cases acknowledged h with
    | again record hl hrecord ha counts =>
      exact ⟨⟨hs.stored, hs.numbered, hs.records, hs.remembered, hs.generation⟩, record, hl, hrecord, ha⟩
    | first record hl hrecord           =>
      refine ⟨hs.mark hl, { record with acked := true, executionId := grant.executionId, generation := grant.generation },
        ?_, hrecord, rfl⟩
      simp only [Function.update_self]
      exact Finmap.lookup_insert _
  have hs₂ : Sound (Run.run (Broadcasts.step slug) s₁ es) := hs₁.run
  have hgrows : Grows s₁ (Run.run (Broadcasts.step slug) s₁ es) := hs₁.grows
  obtain ⟨r, hr', hrest⟩ := hgrows.records _ _ record hl
  rw [claim_found hc hr] at hd
  obtain ⟨id, b, hb, hdue, rfl⟩ := mem_found.mp hd
  obtain ⟨rfl, _⟩ := hs₂.stored id b hb
  rw [← hseat] at hr'
  have hb' : b.revision = record.revision := by
    have : (b.revision : ℤ) = record.revision := hrevision.trans hrecord.symm
    omega
  have hle : b.revision ≤ r.revision := by omega
  obtain ⟨heq, hnot, _⟩ := due_again hs₂ hb hdue hr' hle
  obtain hlt | ⟨_, hkeeps⟩ := hrest
  · omega
  · rw [hkeeps hacked] at hnot
    cases hnot

theorem Sound.fenced (hs : Sound s) : Fenced slug s := by
  intro c ds s₁ h es s₂
  obtain ⟨hg, hc⟩ := claimed h
  have hadmitted : c.grant.generation ≤ s₂.admitted c.grant.seatId := by
    refine le_trans ?_ ((hc.sound hg hs).grows.admitted _)
    cases hc with
    | replayed last hr  =>
      obtain ⟨hlast, _, hgeneration⟩ := remembered_eq_some hr
      exact hgeneration ▸ hs.generation _ last hlast
    | wrote             => simp [State.admitted, Claim.wrote]
    | found _ _ _ hg'   => exact hg'
  refine ⟨fun c' hseat hlt => ?_, fun grant id revision hseat hlt => ?_⟩
  · have hfence : c'.grant.generation < s₂.admitted c'.grant.seatId := by
      rw [hseat]
      omega
    unfold Claim.run
    extract_lets seat
    by_cases hname : c'.claimId ≠ "" ∧ ¬isName c'.claimId = true
    case pos => exact ⟨_, if_pos hname⟩
    case neg => exact ⟨_, (if_neg hname).trans (if_pos hfence)⟩
  · have hfence : grant.generation < s₂.admitted grant.seatId := by
      rw [hseat]
      omega
    exact if_pos hfence

-- A once revision that a seat was handed is in no further findings of the seat.
theorem Sound.not_found (hs : Sound s) (hmem : b ∈ s.history) (honce : b.policy = .once) (hh : Handed s c.grant.seatId b)
    (hd : d ∈ c.found slug s) (hid : d.broadcast.broadcastId = b.broadcastId)
    (hrevision : d.broadcast.revision = b.revision) : False := by
  obtain ⟨id, b', hb', hdue, rfl⟩ := mem_found.mp hd
  obtain ⟨rfl, hmem'⟩ := hs.stored id b' hb'
  obtain rfl : b' = b := hs.unique hmem hmem' hid hrevision
  obtain ⟨r, hr, hle⟩ := hh
  exact (due_again hs hb' hdue hr hle).right.right honce

-- The answer that the seat remembers, if it has the revision, is the claim's.
def State.Answers (s : State) (c : Claim) (b : Broadcast) : Prop :=
  ∀ last, s.claims.lookup c.grant.seatId = some last → ∀ d ∈ last.deliveries,
    d.broadcast.broadcastId = b.broadcastId → d.broadcast.revision = b.revision →
      last.claimId = c.claimId ∧ last.generation = c.grant.generation

-- A claim that is handed a once revision anew is the one that answers for it.
theorem answers_claimed (hs : Sound s) (h : Claimed slug s c ds s') (hr : c.remembered s = none) (hd : d ∈ ds)
    (honce : d.broadcast.policy = .once) : s'.Answers c d.broadcast := by
  have hds : d ∈ c.found slug s := by
    cases h with
    | replayed last hr' => cases hr.symm.trans hr'
    | wrote             => exact hd
    | found             => exact hd
  -- No answer from before has the revision, since the seat was not handed it before.
  have hbefore (last : Answer) (hlast : s.claims.lookup c.grant.seatId = some last) (d' : Delivery)
      (hd' : d' ∈ last.deliveries) (hid : d'.broadcast.broadcastId = d.broadcast.broadcastId)
      (hrevision : d'.broadcast.revision = d.broadcast.revision) : False := by
    obtain ⟨hmem, hhanded⟩ := hs.remembered _ last hlast d' hd'
    obtain ⟨id, b, hb, _, hbroadcast⟩ := mem_found.mp hds
    obtain ⟨_, hmem'⟩ := hs.stored id b hb
    have heq : d'.broadcast = d.broadcast := by
      rw [hbroadcast] at hid hrevision ⊢
      exact hs.unique hmem' hmem hid hrevision
    exact hs.not_found hmem (heq ▸ honce) hhanded hds hid.symm hrevision.symm
  intro last hlast d' hd' hid hrevision
  cases h with
  | replayed last' hr' => cases hr.symm.trans hr'
  | found              => exact (hbefore last hlast d' hd' hid hrevision).elim
  | wrote              =>
    simp only [Claim.wrote] at hlast
    split at hlast
    case isTrue  => exact (hbefore last hlast d' hd' hid hrevision).elim
    case isFalse =>
      obtain rfl := Option.some.inj ((Finmap.lookup_insert _).symm.trans hlast)
      exact ⟨rfl, rfl⟩

-- Later claims find the revision no more, so no answer but the claim's has it.
theorem answers_run (hs : Sound s) (hmem : b ∈ s.history) (honce : b.policy = .once) (hh : Handed s c.grant.seatId b)
    (ha : s.Answers c b) : (Run.run (step slug) s es).Answers c b := by
  let I (t : State) : Prop := Sound t ∧ b ∈ t.history ∧ Handed t c.grant.seatId b ∧ t.Answers c b
  have hstep (t : State) (e : Event) (ht : I t) : I (step slug t e) := by
    obtain ⟨ht, hmem, hh, ha⟩ := ht
    have hafter : Sound (step slug t e) ∧ Grows t (step slug t e) := ht.step
    obtain ⟨ht', hgrows⟩ := hafter
    refine ⟨ht', hgrows.history.subset hmem, hh.grows hgrows, ?_⟩
    have h := steps slug t e
    generalize step slug t e = t' at h
    cases h with
    | claim c' _ _ _ =>
      intro last hlast d hd hid hrevision
      simp only [Claim.wrote] at hlast
      split at hlast
      case isTrue  => exact ha last hlast d hd hid hrevision
      case isFalse =>
        by_cases hseat : c.grant.seatId = c'.grant.seatId
        case pos =>
          rw [hseat, Finmap.lookup_insert] at hlast
          obtain rfl := Option.some.inj hlast
          exact (ht.not_found hmem honce (hseat ▸ hh) hd hid hrevision).elim
        case neg =>
          rw [Finmap.lookup_insert_of_ne _ hseat] at hlast
          exact ha last hlast d hd hid hrevision
    | _ => exact ha
  have hrun : I (Run.run (step slug) s es) := Run.invariant hstep ⟨hs, hmem, hh, ha⟩
  exact hrun.right.right.right

theorem Sound.once (hs : Sound s) : Once slug s := by
  intro c ds s₁ h d hd honce es c' hseat ds' s₃ h' d' hd' hid hrevision
  obtain ⟨hg, hc⟩ := claimed h
  have hs₁ : Sound s₁ := hc.sound hg hs
  obtain ⟨hmem, hhanded⟩ := hc.handed hs hd
  have hs₂ : Sound (Run.run (Broadcasts.step slug) s₁ es) := hs₁.run
  have hgrows : Grows s₁ (Run.run (Broadcasts.step slug) s₁ es) := hs₁.grows
  have hfound : d' ∈ c'.found slug (Run.run (Broadcasts.step slug) s₁ es) → False := fun hfound =>
    hs₂.not_found (hgrows.history.subset hmem) honce (hseat ▸ hhanded.grows hgrows) hfound hid hrevision
  cases (claimed h').right with
  | wrote             => exact (hfound hd').elim
  | found             => exact (hfound hd').elim
  | replayed last hr' =>
    refine ⟨last, hr', rfl, fun hr => ?_⟩
    obtain ⟨hlast, _⟩ := remembered_eq_some hr'
    have ha : (Run.run (Broadcasts.step slug) s₁ es).Answers c d.broadcast :=
      answers_run hs₁ hmem honce hhanded (answers_claimed hs hc hr hd honce)
    exact ha last (hseat ▸ hlast) d' hd' hid hrevision

theorem matches_found (hd : d ∈ c.found slug s) : State.Matches slug d.broadcast c.grant c.channels c.now := by
  obtain ⟨_, b, _, hdue, rfl⟩ := mem_found.mp hd
  exact hdue.left

-- What a seat's answer says it was handed, a claim was handed earlier in the run.
theorem answer_run {last : Answer} (h : (Run.run (step slug) empty es).claims.lookup seat = some last) :
    ∃ (es₁ : List Event) (c₀ : Claim) (s₀ : State), es₁ <+: es ∧ c₀.grant.seatId = seat ∧ c₀.claimId = last.claimId ∧
      c₀.grant.generation = last.generation ∧ c₀.run slug (Run.run (step slug) empty es₁) = .ok (last.deliveries, s₀) ∧
      ∀ d ∈ last.deliveries, State.Matches slug d.broadcast c₀.grant c₀.channels c₀.now := by
  induction es using List.reverseRecOn
  case nil              => simp [empty] at h
  case append_singleton es e ih =>
    rw [Run.run_concat] at h
    have hstep := steps slug (Run.run (step slug) empty es) e
    have hkept (h : (Run.run (step slug) empty es).claims.lookup seat = some last) :
        ∃ (es₁ : List Event) (c₀ : Claim) (s₀ : State), es₁ <+: es ++ [e] ∧ c₀.grant.seatId = seat ∧
          c₀.claimId = last.claimId ∧ c₀.grant.generation = last.generation ∧
          c₀.run slug (Run.run (step slug) empty es₁) = .ok (last.deliveries, s₀) ∧
          ∀ d ∈ last.deliveries, State.Matches slug d.broadcast c₀.grant c₀.channels c₀.now := by
      obtain ⟨es₁, c₀, s₀, hpre, hrest⟩ := ih h
      exact ⟨es₁, c₀, s₀, hpre.trans (List.prefix_append _ _), hrest⟩
    generalize step slug (Run.run (step slug) empty es) e = s' at h hstep
    cases hstep with
    | claim c _ _ hc =>
      simp only [Claim.wrote] at h
      split at h
      case isTrue  => exact hkept h
      case isFalse =>
        by_cases hseat : seat = c.grant.seatId
        case pos =>
          subst hseat
          obtain rfl := Option.some.inj ((Finmap.lookup_insert _).symm.trans h)
          exact ⟨es, c, _, List.prefix_append _ _, rfl, rfl, rfl, hc, fun d hd => matches_found hd⟩
        case neg => exact hkept ((Finmap.lookup_insert_of_ne _ hseat).symm.trans h)
    | _ => exact hkept h

theorem matched_run : Matched slug es := by
  intro c ds s₁ h
  cases (claimed h).right with
  | wrote            => exact .inl fun d hd => matches_found hd
  | found            => exact .inl fun d hd => matches_found hd
  | replayed last hr =>
    obtain ⟨hlast, hid, hgeneration⟩ := remembered_eq_some hr
    obtain ⟨es₁, c₀, s₀, hpre, hseat, hid₀, hgeneration₀, hrest⟩ := answer_run hlast
    exact .inr ⟨es₁, c₀, s₀, hpre, hseat, hid₀.trans hid, hgeneration₀.trans hgeneration, hrest⟩

end Delivered

section Run

theorem broadcasts_run (slug : String) (es : List Event) :
    let s := Run.run (step slug) empty es
    Numbered s ∧ Retried slug s ∧ Once slug s ∧ Acked slug s ∧ Fenced slug s ∧ Matched slug es := by
  intro s
  have hs : Sound s := Sound.empty.run
  exact ⟨hs.numbered, hs.retried, hs.once, hs.acked, hs.fenced, matched_run⟩

-- An operator's notice about the link.
def notice (message : String) : JsonValue :=
  .object [("broadcast_id", .scalar (.str "link")), ("brain_id", .scalar (.str "main")), ("severity", .scalar (.str "info")),
    ("message", .scalar (.str message)), ("ttl_seconds", .scalar (.int 60))]

def announce (message operationId : String) (now : ℤ) (s : State) : Except Refusal (Broadcast × State) :=
  publish "fleet" s (operatorPublication "token" (some "ada") (notice message) operationId) "fresh" now

-- The first call finds its broadcast as it is and is not recorded; by the time of its retry the broadcast is another.
theorem broadcasts_repeats :
    let s := Run.run (step "fleet") empty [.publishOperator "token" (some "ada") (notice "down") "" "fresh" 0]
    let first := announce "down" "op-1" 1 s
    let s₂ := Run.run (step "fleet") (after s first) [.publishOperator "token" (some "ada") (notice "up") "" "fresh" 2]
    let retry := announce "down" "op-1" 3 s₂
    first.toOption.map (·.1.revision) = some 1 ∧ retry.toOption.map (·.1.revision) = some 3 ∧
      (after s₂ retry).history.map Broadcast.revision = [1, 2, 3] := by
  decide +kernel

end Run

end Broadcasts
