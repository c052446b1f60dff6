import Agentihooks.Broadcasts.Fleet

namespace Broadcasts

section Commit

variable {slug fresh : String} {s s' : State} {q : Publication} {now : ℤ} {b : Broadcast}

-- What the operations hold of a publication that names itself.
def State.recorded (s : State) (q : Publication) : Option Broadcast :=
  if q.operationId = "" then none else s.operations.lookup q.operation

def State.numbered (s : State) (id : String) : ℕ :=
  (s.broadcasts.lookup id).elim 1 (·.revision + 1)

def State.publish (s : State) (q : Publication) (built : Broadcast) : State :=
  { s with
    broadcasts := s.broadcasts.insert built.broadcastId built
    history    := s.history ++ [built]
    operations := if q.operationId = "" then s.operations else s.operations.insert q.operation built }

-- All that a publication comes to.
inductive Committed (slug : String) (s : State) (q : Publication) (fresh : String) (now : ℤ) : Broadcast → State → Prop
  | replayed (b : Broadcast) (hr : s.recorded q = some b) (hs : q.Same b)
    (hid : q.broadcastId = "" ∨ q.broadcastId = b.broadcastId) : Committed slug s q fresh now b s
  | unchanged (b : Broadcast) (hr : s.recorded q = none) (hb : s.broadcasts.lookup (q.id fresh) = some b) (hs : q.Same b)
    (hlt : now < b.expiresMs) (ho : ownerOf b.author = ownerOf q.author) : Committed slug s q fresh now b s
  | built (hr : s.recorded q = none) :
    Committed slug s q fresh now (q.build fresh slug now (s.numbered (q.id fresh)))
      (s.publish q (q.build fresh slug now (s.numbered (q.id fresh))))

theorem named_of_commit (h : s.commit slug q fresh now = .ok (b, s')) :
    (q.operationId ≠ "" → isName q.operationId = true) ∧ s.frozen = false := by
  unfold State.commit at h
  split at h
  case isTrue       => cases h
  case isFalse hop  =>
    split at h
    case isTrue          => cases h
    case isFalse hfrozen =>
      refine ⟨fun hne => ?_, by simpa using hfrozen⟩
      by_contra hn
      exact hop ⟨hne, hn⟩

theorem committed (h : s.commit slug q fresh now = .ok (b, s')) : Committed slug s q fresh now b s' := by
  unfold State.commit at h
  split at h
  case isTrue  => cases h
  case isFalse =>
    split at h
    case isTrue  => cases h
    case isFalse =>
      split at h
      case h_1 replayed hr =>
        split at h
        case isTrue      => cases h
        case isFalse hok =>
          obtain ⟨hs, hid⟩ := not_or.mp hok
          cases h
          refine .replayed b hr (not_not.mp hs) ?_
          by_contra hne
          obtain ⟨hne, hdiffers⟩ := not_or.mp hne
          exact hid ⟨hne, hdiffers⟩
      case h_2 hr          =>
        simp only at h
        split at h
        case isTrue         => cases h
        case isFalse howner =>
          split at h
          case h_1 unchanged hb =>
            cases h
            obtain ⟨hb, hsame⟩ := Option.filter_eq_some_iff.mp hb
            simp only [decide_eq_true_eq] at hsame
            rw [hb] at howner
            simp only [Option.any_some, decide_eq_true_eq, not_or, not_not] at howner
            exact .unchanged b hr hb hsame.left hsame.right howner.left
          case h_2 _            =>
            cases h
            exact .built hr

end Commit

section Claim

variable {slug : String} {s s' : State} {c : Claim} {ds : List Delivery} {grant : Registration} {id : String} {revision : ℤ}

def Claim.wrote (slug : String) (s : State) (c : Claim) : State :=
  { s with
    deliveries  := Function.update s.deliveries c.grant.seatId (c.changed slug s ∪ s.deliveries c.grant.seatId)
    claims      := if c.claimId = "" then s.claims
      else s.claims.insert c.grant.seatId ⟨c.claimId, c.grant.generation, c.found slug s⟩
    generations := s.generations.insert c.grant.seatId c.grant.generation }

-- All that a claim comes to.
inductive Claimed (slug : String) (s : State) (c : Claim) : List Delivery → State → Prop
  | replayed (last : Answer) (hr : c.remembered s = some last) : Claimed slug s c last.deliveries s
  | wrote (hr : c.remembered s = none) : Claimed slug s c (c.found slug s) (c.wrote slug s)
  | found (hr : c.remembered s = none) (hc : c.changed slug s = ∅) (hid : c.claimId = "")
    (hg : c.grant.generation ≤ s.admitted c.grant.seatId) : Claimed slug s c (c.found slug s) s

theorem claimed (h : c.run slug s = .ok (ds, s')) :
    s.admitted c.grant.seatId ≤ c.grant.generation ∧ Claimed slug s c ds s' := by
  unfold Claim.run at h
  extract_lets seat at h
  split at h
  case isTrue  => cases h
  case isFalse =>
    split at h
    case isTrue          => cases h
    case isFalse hfenced =>
      refine ⟨not_lt.mp hfenced, ?_⟩
      split at h
      case h_1 last hr =>
        cases h
        exact .replayed last hr
      case h_2 hr      =>
        simp only at h
        split at h
        case isTrue       =>
          cases h
          exact .wrote hr
        case isFalse hnot =>
          cases h
          obtain ⟨hc, hrest⟩ := not_or.mp hnot
          obtain ⟨hid, hg⟩ := not_or.mp hrest
          exact .found hr (not_not.mp hc) (not_not.mp hid) (not_lt.mp hg)

-- All that an acknowledgement comes to.
inductive Acknowledged (s : State) (grant : Registration) (id : String) (revision : ℤ) : Bool → State → Prop
  | again (record : Record) (hl : (s.deliveries grant.seatId).lookup id = some record) (hr : record.revision = revision)
    (ha : record.acked = true) (counts : String → ℕ) :
    Acknowledged s grant id revision false { s with duplicateAcks := counts }
  | first (record : Record) (hl : (s.deliveries grant.seatId).lookup id = some record) (hr : record.revision = revision) :
    Acknowledged s grant id revision true { s with
      deliveries := Function.update s.deliveries grant.seatId ((s.deliveries grant.seatId).insert id
        { record with acked := true, executionId := grant.executionId, generation := grant.generation }) }

theorem acknowledged {first : Bool} (h : s.acknowledge grant id revision = .ok (first, s')) :
    Acknowledged s grant id revision first s' := by
  unfold State.acknowledge at h
  extract_lets seat at h
  split at h
  case isTrue  => cases h
  case isFalse =>
    split at h
    case h_1           => cases h
    case h_2 record hl =>
      split at h
      case isTrue       => cases h
      case isFalse hlow =>
        split at h
        case isTrue        => cases h
        case isFalse hhigh =>
          have hr : (record.revision : ℤ) = revision := le_antisymm (not_lt.mp hhigh) (not_lt.mp hlow)
          split at h
          case isTrue ha =>
            cases h
            exact .again record hl hr ha _
          case isFalse   =>
            cases h
            exact .first record hl hr

end Claim

section Step

variable {slug fresh : String} {s s' : State} {e : Event} {es : List Event} {b b' : Broadcast} {seat id : String}

-- All that a step does.
inductive Steps (slug : String) (s : State) : State → Prop
  | same : Steps slug s s
  | publish (q : Publication) (fresh : String) (now : ℤ) (hr : s.recorded q = none) :
    Steps slug s (s.publish q (q.build fresh slug now (s.numbered (q.id fresh))))
  | claim (c : Claim) (hg : s.admitted c.grant.seatId ≤ c.grant.generation) (hr : c.remembered s = none)
    (h : c.run slug s = .ok (c.found slug s, c.wrote slug s)) : Steps slug s (c.wrote slug s)
  | count (counts : String → ℕ) : Steps slug s { s with duplicateAcks := counts }
  | acknowledge (grant : Registration) (id : String) (record : Record)
    (hl : (s.deliveries grant.seatId).lookup id = some record) :
    Steps slug s { s with
      deliveries := Function.update s.deliveries grant.seatId ((s.deliveries grant.seatId).insert id
        { record with acked := true, executionId := grant.executionId, generation := grant.generation }) }
  | freeze (frozen : Bool) : Steps slug s { s with frozen := frozen }

theorem steps_publish {q : Except Refusal Publication} {now : ℤ} : Steps slug s (after s (publish slug s q fresh now)) := by
  cases q with
  | error _ => exact .same
  | ok q    =>
    change Steps slug s (after s (s.commit slug q fresh now))
    cases h : s.commit slug q fresh now with
    | error _   => exact .same
    | ok answer =>
      obtain ⟨b, s'⟩ := answer
      cases committed h with
      | replayed  => exact .same
      | unchanged => exact .same
      | built hr  => exact .publish q fresh now hr

theorem steps (slug : String) (s : State) (e : Event) : Steps slug s (step slug s e) := by
  cases e with
  | publish         => exact steps_publish
  | publishOperator => exact steps_publish
  | claim grant channels claimId now =>
    cases hg : authorized slug grant with
    | error _  => simp only [step, claim, hg]; exact .same
    | ok grant =>
      simp only [step, claim, hg]
      change Steps slug s (after s (Claim.run slug s ⟨grant, channels, claimId, now⟩))
      cases h : Claim.run slug s ⟨grant, channels, claimId, now⟩ with
      | error _   => exact .same
      | ok answer =>
        obtain ⟨ds, s'⟩ := answer
        obtain ⟨hgeneration, hc⟩ := claimed h
        cases hc with
        | replayed => exact .same
        | found    => exact .same
        | wrote hr => exact .claim _ hgeneration hr h
  | acknowledge grant id revision    =>
    cases hg : authorized slug grant with
    | error _  => simp only [step, acknowledge, hg]; exact .same
    | ok grant =>
      simp only [step, acknowledge, hg]
      change Steps slug s (after s (s.acknowledge grant id revision))
      cases h : s.acknowledge grant id revision with
      | error _   => exact .same
      | ok answer =>
        obtain ⟨first, s'⟩ := answer
        cases acknowledged h with
        | again record hl hr ha counts => exact .count counts
        | first record hl hr           => exact .acknowledge grant id record hl
  | freeze          => exact .freeze true
  | thaw            => exact .freeze false

-- The seat was handed this revision of the broadcast, or a later one.
def Handed (s : State) (seat : String) (b : Broadcast) : Prop :=
  ∃ record, (s.deliveries seat).lookup b.broadcastId = some record ∧ b.revision ≤ record.revision

-- The revisions of every broadcast in the history are 1, 2, 3 and so on up to the stored one.
def Numbered (s : State) : Prop :=
  ∀ id, (s.history.filter (·.broadcastId = id)).map Broadcast.revision =
    List.range' 1 ((s.broadcasts.lookup id).elim 0 Broadcast.revision)

structure Sound (s : State) : Prop where
  stored     : ∀ id b, s.broadcasts.lookup id = some b → b.broadcastId = id ∧ b ∈ s.history
  numbered   : Numbered s
  records    : ∀ seat id record, (s.deliveries seat).lookup id = some record →
    ∃ b, s.broadcasts.lookup id = some b ∧ record.revision ≤ b.revision
  remembered : ∀ seat last, s.claims.lookup seat = some last → ∀ d ∈ last.deliveries,
    d.broadcast ∈ s.history ∧ Handed s seat d.broadcast
  generation : ∀ seat last, s.claims.lookup seat = some last → last.generation ≤ s.admitted seat

theorem Sound.empty : Sound empty where
  stored     := by simp [Broadcasts.empty]
  numbered   := by simp [Numbered, Broadcasts.empty]
  records    := by simp [Broadcasts.empty]
  remembered := by simp [Broadcasts.empty]
  generation := by simp [Broadcasts.empty]

-- What no step takes back.
structure Grows (s s' : State) : Prop where
  broadcasts : ∀ id b, s.broadcasts.lookup id = some b → ∃ b', s'.broadcasts.lookup id = some b' ∧ b.revision ≤ b'.revision
  history    : s.history <+: s'.history
  operations : ∀ op b, s.operations.lookup op = some b → s'.operations.lookup op = some b
  records    : ∀ seat id r, (s.deliveries seat).lookup id = some r → ∃ r', (s'.deliveries seat).lookup id = some r' ∧
    (r.revision < r'.revision ∨ r.revision = r'.revision ∧ (r.acked = true → r'.acked = true))
  admitted   : ∀ seat, s.admitted seat ≤ s'.admitted seat

theorem Grows.refl : Grows s s where
  broadcasts := fun _ b h => ⟨b, h, le_rfl⟩
  history    := List.prefix_rfl
  operations := fun _ _ h => h
  records    := fun _ _ r h => ⟨r, h, .inr ⟨rfl, id⟩⟩
  admitted   := fun _ => le_rfl

theorem Grows.trans {s₁ s₂ s₃ : State} (h : Grows s₁ s₂) (h' : Grows s₂ s₃) : Grows s₁ s₃ where
  broadcasts := by
    intro id b hb
    obtain ⟨b', hb', hle⟩ := h.broadcasts id b hb
    obtain ⟨b'', hb'', hle'⟩ := h'.broadcasts id b' hb'
    exact ⟨b'', hb'', hle.trans hle'⟩
  history    := h.history.trans h'.history
  operations := fun op b hb => h'.operations op b (h.operations op b hb)
  records    := by
    intro seat id r hr
    obtain ⟨r', hr', hle⟩ := h.records seat id r hr
    obtain ⟨r'', hr'', hle'⟩ := h'.records seat id r' hr'
    refine ⟨r'', hr'', ?_⟩
    obtain hlt | ⟨heq, hacked⟩ := hle
    · exact .inl (hlt.trans_le (hle'.elim le_of_lt fun h => h.left.le))
    · obtain hlt' | ⟨heq', hacked'⟩ := hle'
      · exact .inl (heq ▸ hlt')
      · exact .inr ⟨heq.trans heq', hacked' ∘ hacked⟩
  admitted   := fun seat => (h.admitted seat).trans (h'.admitted seat)

theorem Handed.grows (h : Handed s seat b) (hg : Grows s s') : Handed s' seat b := by
  obtain ⟨r, hr, hle⟩ := h
  obtain ⟨r', hr', hrest⟩ := hg.records seat _ r hr
  exact ⟨r', hr', hle.trans (hrest.elim le_of_lt fun h => h.left.le)⟩

theorem mem_current : b ∈ s.current ↔ ∃ id, s.broadcasts.lookup id = some b := by
  simp only [State.current, List.mem_filterMap, Finset.mem_sort, Finset.mem_image]
  constructor
  case mp =>
    rintro ⟨key, _, hb⟩
    exact ⟨_, hb⟩
  case mpr =>
    rintro ⟨id, hb⟩
    exact ⟨_, ⟨id, Finmap.mem_keys.mpr (Finmap.mem_of_lookup_eq_some hb), rfl⟩, hb⟩

theorem mem_found {c : Claim} {d : Delivery} :
    d ∈ c.found slug s ↔ ∃ id b, s.broadcasts.lookup id = some b ∧ c.Due slug s b ∧ d = c.delivery s b := by
  simp only [Claim.found, List.mem_map, List.mem_filter, mem_current, decide_eq_true_eq]
  constructor
  case mp =>
    rintro ⟨b, ⟨⟨id, hb⟩, hdue⟩, rfl⟩
    exact ⟨id, b, hb, hdue, rfl⟩
  case mpr =>
    rintro ⟨id, b, hb, hdue, rfl⟩
    exact ⟨b, ⟨⟨id, hb⟩, hdue⟩, rfl⟩

theorem lookup_changed {c : Claim} {r : Record} (h : (c.changed slug s).lookup id = some r) :
    ∃ b, s.broadcasts.lookup id = some b ∧ c.Due slug s b ∧ r.revision = b.revision ∧ r.acked = false := by
  simp only [Claim.changed, Finmap.lookup_mapValues, Option.map_eq_some_iff, Finmap.lookup_select_eq_some] at h
  obtain ⟨b, ⟨hb, hdue, _⟩, rfl⟩ := h
  exact ⟨b, hb, hdue, rfl, rfl⟩

theorem record_eq_some {r : Record} :
    s.record seat b = some r ↔ (s.deliveries seat).lookup b.broadcastId = some r ∧ r.revision = b.revision := by
  simp [State.record, Option.filter_eq_some_iff]

-- A broadcast that is due has a record of its revision after the claim.
theorem handed_found (hs : Sound s) {c : Claim} (hb : s.broadcasts.lookup id = some b) (hdue : c.Due slug s b) :
    ∃ r, (c.changed slug s ∪ s.deliveries c.grant.seatId).lookup id = some r ∧ r.revision = b.revision := by
  obtain ⟨rfl, _⟩ := hs.stored id b hb
  rw [Finmap.lookup_union]
  cases hc : (c.changed slug s).lookup b.broadcastId with
  | some r =>
    obtain ⟨b', hb', _, hr, _⟩ := lookup_changed hc
    obtain rfl := Option.some.inj (hb.symm.trans hb')
    exact ⟨r, rfl, hr⟩
  | none   =>
    simp only [Claim.changed, Finmap.lookup_mapValues, Option.map_eq_none_iff, Finmap.lookup_select, hb,
      Option.filter_some, decide_eq_true_eq, ite_eq_right_iff, reduceCtorEq, imp_false, not_and, not_not] at hc
    have hrecord := hc hdue
    rw [Option.any_eq_true] at hrecord
    obtain ⟨r, hr, _⟩ := hrecord
    obtain ⟨hl, hrevision⟩ := record_eq_some.mp hr
    exact ⟨r, hl, hrevision⟩

section Publish

variable {q : Publication} {now : ℤ}

theorem lookup_publish {built : Broadcast} (h : (s.publish q built).broadcasts.lookup id = some b) :
    id = built.broadcastId ∧ b = built ∨ id ≠ built.broadcastId ∧ s.broadcasts.lookup id = some b := by
  by_cases hid : id = built.broadcastId
  case pos =>
    subst hid
    exact .inl ⟨rfl, (Option.some.inj ((Finmap.lookup_insert _).symm.trans h)).symm⟩
  case neg => exact .inr ⟨hid, (Finmap.lookup_insert_of_ne _ hid).symm.trans h⟩

theorem numbered_eq : s.numbered id = (s.broadcasts.lookup id).elim 0 Broadcast.revision + 1 := by
  unfold State.numbered
  cases s.broadcasts.lookup id <;> rfl

theorem Grows.publish (hr : s.recorded q = none) :
    Grows s (s.publish q (q.build fresh slug now (s.numbered (q.id fresh)))) where
  broadcasts := by
    intro id b hb
    by_cases hid : id = q.id fresh
    case pos =>
      subst hid
      refine ⟨_, Finmap.lookup_insert _, ?_⟩
      change b.revision ≤ s.numbered (q.id fresh)
      rw [numbered_eq, hb]
      exact Nat.le_succ _
    case neg => exact ⟨b, (Finmap.lookup_insert_of_ne _ hid).trans hb, le_rfl⟩
  history    := List.prefix_append _ _
  operations := by
    intro op b hb
    unfold State.recorded at hr
    simp only [State.publish]
    split at hr
    case isTrue h  => rwa [if_pos h]
    case isFalse h =>
      rw [if_neg h, Finmap.lookup_insert_of_ne _, hb]
      rintro rfl
      cases hr.symm.trans hb
  records    := fun _ _ r h => ⟨r, h, .inr ⟨rfl, fun h => h⟩⟩
  admitted   := fun _ => le_rfl

theorem Sound.publish (hs : Sound s) (hr : s.recorded q = none) :
    Sound (s.publish q (q.build fresh slug now (s.numbered (q.id fresh)))) where
  stored     := by
    intro id b hb
    obtain ⟨rfl, rfl⟩ | ⟨_, hb⟩ := lookup_publish hb
    · exact ⟨rfl, List.mem_append_right _ (List.mem_singleton_self _)⟩
    · exact ⟨(hs.stored id b hb).left, List.mem_append_left _ (hs.stored id b hb).right⟩
  numbered   := by
    intro id
    simp only [State.publish, List.filter_append, List.map_append, hs.numbered id]
    by_cases hid : id = q.id fresh
    case pos =>
      subst hid
      have hbuilt : (q.build fresh slug now (s.numbered (q.id fresh))).broadcastId = q.id fresh := rfl
      simp only [hbuilt, Finmap.lookup_insert, Option.elim_some, List.filter_cons, decide_true, if_true, List.filter_nil,
        List.map_cons, List.map_nil]
      change _ ++ [s.numbered (q.id fresh)] = List.range' 1 (s.numbered (q.id fresh))
      rw [numbered_eq, List.range'_1_concat, Nat.add_comm 1]
    case neg =>
      have hbuilt : (q.build fresh slug now (s.numbered (q.id fresh))).broadcastId ≠ id := Ne.symm hid
      rw [Finmap.lookup_insert_of_ne _ (Ne.symm hbuilt)]
      simp [hbuilt]
  records    := by
    intro seat id record hrecord
    obtain ⟨b, hb, hle⟩ := hs.records seat id record hrecord
    have hg : Grows s (s.publish q (q.build fresh slug now (s.numbered (q.id fresh)))) := .publish hr
    obtain ⟨b', hb', hle'⟩ := hg.broadcasts id b hb
    exact ⟨b', hb', hle.trans hle'⟩
  remembered := by
    intro seat last hlast d hd
    obtain ⟨hmem, hhanded⟩ := hs.remembered seat last hlast d hd
    exact ⟨List.mem_append_left _ hmem, hhanded⟩
  generation := hs.generation

end Publish

section Claim

variable {c : Claim}

theorem Grows.claim (hs : Sound s) (hg : s.admitted c.grant.seatId ≤ c.grant.generation) : Grows s (c.wrote slug s) where
  broadcasts := fun _ b h => ⟨b, h, le_rfl⟩
  history    := List.prefix_rfl
  operations := fun _ _ h => h
  records    := by
    intro seat id r hr
    by_cases hseat : seat = c.grant.seatId
    case pos =>
      subst hseat
      simp only [Claim.wrote, Function.update_self, Finmap.lookup_union]
      cases hc : (c.changed slug s).lookup id with
      | none    => exact ⟨r, hr, .inr ⟨rfl, fun h => h⟩⟩
      | some r' =>
        obtain ⟨b, hb, hdue, hrevision, _⟩ := lookup_changed hc
        obtain ⟨b', hb', hle⟩ := hs.records _ id r hr
        obtain rfl := Option.some.inj (hb.symm.trans hb')
        refine ⟨r', rfl, hle.lt_or_eq.imp (fun h => hrevision ▸ h) fun heq => ⟨heq.trans hrevision.symm, fun hacked => ?_⟩⟩
        -- A record of the same revision that is acknowledged is not due.
        obtain ⟨rfl, _⟩ := hs.stored id b hb
        have hrecord : s.record c.grant.seatId b = some r := record_eq_some.mpr ⟨hr, heq⟩
        refine absurd ?_ hdue.right
        rw [hrecord]
        simp [hacked]
    case neg =>
      refine ⟨r, ?_, .inr ⟨rfl, fun h => h⟩⟩
      simpa only [Claim.wrote, Function.update_of_ne hseat] using hr
  admitted   := by
    intro seat
    by_cases hseat : seat = c.grant.seatId
    case pos =>
      subst hseat
      simpa [State.admitted, Claim.wrote] using hg
    case neg =>
      simp only [State.admitted, Claim.wrote, Finmap.lookup_insert_of_ne _ hseat]
      exact le_rfl

theorem Sound.claim (hs : Sound s) (hg : s.admitted c.grant.seatId ≤ c.grant.generation) : Sound (c.wrote slug s) where
  stored     := hs.stored
  numbered   := hs.numbered
  records    := by
    intro seat id record hrecord
    by_cases hseat : seat = c.grant.seatId
    case pos =>
      subst hseat
      simp only [Claim.wrote, Function.update_self, Finmap.lookup_union, Option.or_eq_some_iff] at hrecord
      obtain hc | ⟨_, hold⟩ := hrecord
      · obtain ⟨b, hb, _, hrevision, _⟩ := lookup_changed hc
        exact ⟨b, hb, hrevision.le⟩
      · exact hs.records _ id record hold
    case neg =>
      simp only [Claim.wrote, Function.update_of_ne hseat] at hrecord
      exact hs.records seat id record hrecord
  remembered := by
    intro seat last hlast d hd
    have hold (hlast : s.claims.lookup seat = some last) :
        d.broadcast ∈ s.history ∧ Handed (c.wrote slug s) seat d.broadcast := by
      obtain ⟨hmem, hhanded⟩ := hs.remembered seat last hlast d hd
      exact ⟨hmem, hhanded.grows (.claim hs hg)⟩
    simp only [Claim.wrote] at hlast
    split at hlast
    case isTrue  => exact hold hlast
    case isFalse =>
      by_cases hseat : seat = c.grant.seatId
      case pos =>
        subst hseat
        obtain rfl := Option.some.inj ((Finmap.lookup_insert _).symm.trans hlast)
        obtain ⟨id, b, hb, hdue, rfl⟩ := mem_found.mp hd
        obtain ⟨rfl, hmem⟩ := hs.stored id b hb
        obtain ⟨r, hr, hrevision⟩ := handed_found hs hb hdue
        refine ⟨hmem, r, ?_, hrevision.ge⟩
        simp only [Claim.wrote, Function.update_self]
        exact hr
      case neg => exact hold ((Finmap.lookup_insert_of_ne _ hseat).symm.trans hlast)
  generation := by
    intro seat last hlast
    have hold (hlast : s.claims.lookup seat = some last) : last.generation ≤ (c.wrote slug s).admitted seat :=
      (hs.generation seat last hlast).trans ((Grows.claim hs hg).admitted seat)
    simp only [Claim.wrote] at hlast
    split at hlast
    case isTrue  => exact hold hlast
    case isFalse =>
      by_cases hseat : seat = c.grant.seatId
      case pos =>
        subst hseat
        obtain rfl := Option.some.inj ((Finmap.lookup_insert _).symm.trans hlast)
        simp [State.admitted, Claim.wrote]
      case neg => exact hold ((Finmap.lookup_insert_of_ne _ hseat).symm.trans hlast)

end Claim

section Acknowledge

variable {grant : Registration} {record : Record}

def State.mark (s : State) (grant : Registration) (id : String) (record : Record) : State :=
  { s with
    deliveries := Function.update s.deliveries grant.seatId ((s.deliveries grant.seatId).insert id
      { record with acked := true, executionId := grant.executionId, generation := grant.generation }) }

theorem lookup_mark (hl : (s.deliveries grant.seatId).lookup id = some record) {seat key : String} {r : Record}
    (hr : (s.deliveries seat).lookup key = some r) : ∃ r', ((s.mark grant id record).deliveries seat).lookup key = some r' ∧
      r.revision = r'.revision ∧ (r.acked = true → r'.acked = true) := by
  by_cases hseat : seat = grant.seatId
  case pos =>
    subst hseat
    simp only [State.mark, Function.update_self]
    by_cases hkey : key = id
    case pos =>
      subst hkey
      obtain rfl := Option.some.inj (hl.symm.trans hr)
      exact ⟨_, Finmap.lookup_insert _, rfl, fun _ => rfl⟩
    case neg => exact ⟨r, (Finmap.lookup_insert_of_ne _ hkey).trans hr, rfl, fun h => h⟩
  case neg => exact ⟨r, by simpa only [State.mark, Function.update_of_ne hseat] using hr, rfl, fun h => h⟩

theorem Grows.mark (hl : (s.deliveries grant.seatId).lookup id = some record) : Grows s (s.mark grant id record) where
  broadcasts := fun _ b h => ⟨b, h, le_rfl⟩
  history    := List.prefix_rfl
  operations := fun _ _ h => h
  records    := by
    intro seat key r hr
    obtain ⟨r', hr', hrest⟩ := lookup_mark hl hr
    exact ⟨r', hr', .inr hrest⟩
  admitted   := fun _ => le_rfl

theorem Sound.mark (hs : Sound s) (hl : (s.deliveries grant.seatId).lookup id = some record) :
    Sound (s.mark grant id record) where
  stored     := hs.stored
  numbered   := hs.numbered
  records    := by
    intro seat key r hr
    by_cases hseat : seat = grant.seatId
    case pos =>
      subst hseat
      simp only [State.mark, Function.update_self] at hr
      by_cases hkey : key = id
      case pos =>
        subst hkey
        obtain rfl := Option.some.inj ((Finmap.lookup_insert _).symm.trans hr)
        exact hs.records _ key record hl
      case neg => exact hs.records _ key r ((Finmap.lookup_insert_of_ne _ hkey).symm.trans hr)
    case neg =>
      simp only [State.mark, Function.update_of_ne hseat] at hr
      exact hs.records seat key r hr
  remembered := by
    intro seat last hlast d hd
    obtain ⟨hmem, hhanded⟩ := hs.remembered seat last hlast d hd
    exact ⟨hmem, hhanded.grows (.mark hl)⟩
  generation := hs.generation

end Acknowledge

theorem Sound.step (hs : Sound s) : Sound (step slug s e) ∧ Grows s (step slug s e) := by
  have h := steps slug s e
  have hg : Grows s s := .refl
  generalize Broadcasts.step slug s e = s' at h ⊢
  cases h with
  | same                          => exact ⟨hs, .refl⟩
  | publish q fresh now hr        => exact ⟨hs.publish hr, .publish hr⟩
  | claim c hg _ _                => exact ⟨hs.claim hg, .claim hs hg⟩
  | count counts                  =>
    exact ⟨⟨hs.stored, hs.numbered, hs.records, hs.remembered, hs.generation⟩, hg.broadcasts, hg.history, hg.operations, hg.records, hg.admitted⟩
  | acknowledge grant id record hl => exact ⟨hs.mark hl, .mark hl⟩
  | freeze frozen                 =>
    exact ⟨⟨hs.stored, hs.numbered, hs.records, hs.remembered, hs.generation⟩, hg.broadcasts, hg.history, hg.operations, hg.records, hg.admitted⟩

theorem Sound.run (hs : Sound s) : Sound (Run.run (Broadcasts.step slug) s es) :=
  Run.invariant (fun _ _ h => h.step.left) hs

theorem Sound.grows (hs : Sound s) : Grows s (Run.run (Broadcasts.step slug) s es) :=
  Run.monotone (fun _ => .refl) Grows.trans (P := fun _ _ => True) (I := Sound) (fun _ _ h _ => h.step.left)
    (fun _ _ h _ => h.step.right) hs (.of_forall fun _ _ => trivial)

end Step

end Broadcasts
