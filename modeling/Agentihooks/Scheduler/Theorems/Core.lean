import Agentihooks.Scheduler.Core

namespace Scheduler

namespace Entry

variable {e e' : Entry} {nextDue : NextDue} {now : Time}

def Closed (e : Entry) : Prop :=
  e.state = .stopped ∨ e.state = .cancelled ∨ e.state = .stale

-- The details of an occurrence are there exactly while it is pending.
def Whole (e : Entry) : Prop :=
  e.state = .pending ↔ e.pending ≠ none

-- What can become of an entry without a claim, a delivery or a finish: it is closed, it is started, or its state and its
-- occurrence stay.
def Eased (e e' : Entry) : Prop :=
  e'.kind = e.kind ∧ (e'.Closed ∧ e'.pending = none ∨ e'.state = e.state ∧ e'.pending = e.pending ∨
    e.state = .ready ∧ e'.state = .active ∧ e'.pending = e.pending)

theorem Closed.ne_pending (h : e.Closed) : e.state ≠ .pending := by
  obtain h | h | h := h <;> simp [h]

theorem Closed.ne_ready (h : e.Closed) : e.state ≠ .ready := by
  obtain h | h | h := h <;> simp [h]

theorem Closed.ne_active (h : e.Closed) : e.state ≠ .active := by
  obtain h | h | h := h <;> simp [h]

theorem Whole.pending_of_ne (h : e.Whole) (hp : e.state ≠ .pending) : e.pending = none := by
  by_contra hc
  exact hp (h.mpr hc)

theorem eased_start (h : e.start nextDue now = some e') : e.Eased e' := by
  by_cases hr : e.state = .ready
  case pos =>
    rw [start, if_neg (not_not.mpr hr)] at h
    cases h
    exact ⟨rfl, .inr (.inr ⟨hr, rfl, rfl⟩)⟩
  case neg =>
    rw [start, if_pos hr] at h
    cases h

theorem eased_stop : e.Eased (e.stop now) :=
  ⟨rfl, .inl ⟨.inl rfl, rfl⟩⟩

theorem eased_cancel : e.Eased e.cancel :=
  ⟨rfl, .inl ⟨.inr (.inl rfl), rfl⟩⟩

theorem eased_connect {c : Connection} : e.Eased (e.connect c) :=
  ⟨rfl, .inr (.inl ⟨rfl, rfl⟩)⟩

theorem eased_disconnect {c : ℕ} : e.Eased (e.disconnect c) :=
  ⟨rfl, .inr (.inl ⟨rfl, rfl⟩)⟩

theorem Closed.eased_stale (h : e.Closed) (hw : e.Whole) : e.Eased { e with state := .stale } :=
  ⟨rfl, .inl ⟨.inr (.inr rfl), hw.pending_of_ne h.ne_pending⟩⟩

theorem Eased.whole (h : e.Eased e') (hw : e.Whole) : e'.Whole := by
  obtain ⟨-, ⟨hc, hp⟩ | ⟨hs, hp⟩ | ⟨hr, ha, hp⟩⟩ := h
  case inl         => simp [Whole, hp, hc.ne_pending]
  case inr.inl     => rwa [Whole, hs, hp]
  case inr.inr     => simp [Whole, ha, hp, hw.pending_of_ne (by simp [hr])]

theorem Eased.closed (h : e.Eased e') (hc : e.Closed) : e'.Closed := by
  obtain ⟨-, ⟨hc', -⟩ | ⟨hs, -⟩ | ⟨hr, -⟩⟩ := h
  case inl     => exact hc'
  case inr.inl => rwa [Closed, hs]
  case inr.inr => exact absurd hr hc.ne_ready

theorem Eased.closed_or (h : e.Eased e') (hp : e.state = .pending) : e'.Closed ∨ e'.state = .pending := by
  obtain ⟨-, ⟨hc, -⟩ | ⟨hs, -⟩ | ⟨hr, -⟩⟩ := h
  case inl     => exact .inl hc
  case inr.inl => exact .inr (hs.trans hp)
  case inr.inr => simp [hr] at hp

-- An occurrence that is there after the change was there before it.
theorem Eased.pending {p : Pending} (h : e.Eased e') (hp : e'.pending = some p) : e.pending = some p := by
  obtain ⟨-, ⟨-, hn⟩ | ⟨-, hs⟩ | ⟨-, -, hs⟩⟩ := h
  case inl     => simp [hn] at hp
  case inr.inl => rwa [← hs]
  case inr.inr => rwa [← hs]

theorem Eased.unclaimed (h : e.Eased e') (hs : e'.state = .ready ∨ e'.state = .active) :
    e.state = .ready ∨ e.state = .active := by
  obtain ⟨-, ⟨hc, -⟩ | ⟨he, -⟩ | ⟨hr, -⟩⟩ := h
  case inl     => exact (hs.elim hc.ne_ready hc.ne_active).elim
  case inr.inl => rwa [← he]
  case inr.inr => exact .inl hr

theorem finish_of_ne (h : e.state ≠ .pending) : e.finish nextDue now = e := by
  rw [finish, if_pos h]

theorem finish_kind : (e.finish nextDue now).kind = e.kind := by
  unfold finish
  split_ifs
  case pos => rfl
  case neg => split <;> rfl

theorem finish_pending (h : e.state = .pending) : (e.finish nextDue now).pending = none := by
  rw [finish, if_neg (not_not.mpr h)]
  split <;> rfl

theorem finish_ne (h : e.state = .pending) : (e.finish nextDue now).state ≠ .pending := by
  rw [finish, if_neg (not_not.mpr h)]
  split <;> simp

theorem finish_once (h : e.state = .pending) (hk : e.kind.once) : (e.finish nextDue now).state = .fired := by
  rw [finish, if_neg (not_not.mpr h)]
  split
  case h_1 hc => simp [Kind.once, hc] at hk
  case h_2 hc => simp [Kind.once, hc] at hk
  case h_3    => rfl

theorem acknowledge_state {c : ℕ} : (e.acknowledge c).state = e.state := by
  unfold acknowledge
  split_ifs <;> rfl

theorem acknowledge_kind {c : ℕ} : (e.acknowledge c).kind = e.kind := by
  unfold acknowledge
  split_ifs <;> rfl

theorem acknowledge_pending {c : ℕ} {p : Pending} (h : e.Whole) (hp : (e.acknowledge c).pending = some p) :
    ∃ p₀, e.pending = some p₀ ∧ p = { p₀ with delivered := p₀.delivered ++ [c] } := by
  unfold acknowledge at hp
  split_ifs at hp with hs
  case pos =>
    obtain ⟨p₀, he, rfl⟩ := Option.map_eq_some_iff.mp hp
    exact ⟨p₀, he, rfl⟩
  case neg => simp [h.pending_of_ne hs] at hp

end Entry

-- The entry of a claim, with the identifier and the slots of its occurrence.
def Claim.Of (c : Claim) (id : ℕ) (p : Pending) : Prop :=
  c.entry = id ∧ c.pending.id = p.id ∧ c.pending.slots = p.slots

-- The entries that a pass is at, each once.
def Position.entries : Position → List ℕ
  | .listing todo                                             => todo
  | .marking id todo                                          => id :: todo
  | .slot job | .checked job | .verified job | .delivered job => job.entry :: job.todo
  | _                                                         => []

namespace World

variable {w w' : World}

-- An entry and what the world has seen of it.
structure Sound (w : World) (id : ℕ) (e : Entry) : Prop where
  fresh      : id < w.next
  whole      : e.Whole
  kind       : ∀ c ∈ w.claims, c.entry = id → c.kind = e.kind
  unclaimed  : e.kind.once → e.state = .ready ∨ e.state = .active → ∀ c ∈ w.claims, c.entry ≠ id
  claimed    : ∀ p, e.pending = some p → ∃ c ∈ w.claims, c.Of id p
  delivered  : ∀ p, e.pending = some p → ∀ c ∈ p.delivered, (p.id, c) ∈ w.deliveries
  unfinished : ∀ p, e.pending = some p → ∀ x ∈ w.finished, x.2.id ≠ p.id

-- An occurrence that is finished was claimed, and each slot of it has been delivered.
def Settled (w : World) (x : ℕ × Pending) : Prop :=
  ∃ c ∈ w.claims, c.Of x.1 x.2 ∧ ∀ s ∈ x.2.slots, (x.2.id, s.id) ∈ w.deliveries

structure Consistent (w : World) : Prop where
  sound      : ∀ id e, w.document.entries.lookup id = some e → w.Sound id e
  increasing : (w.claims.map fun c => c.pending.id).Pairwise (· < ·)
  drawn      : ∀ c ∈ w.claims, c.entry < w.next ∧ c.pending.id < w.next
  punctual   : ∀ c ∈ w.claims, c.pending.scheduledAt ≤ c.pending.firedAt
  once       : ((w.claims.filter fun c => c.kind.once).map fun c => c.entry).Nodup
  distinct   : (w.finished.map fun x => x.2.id).Nodup
  settled    : ∀ x ∈ w.finished, w.Settled x
  meant      : ∀ d ∈ w.deliveries, ∃ c ∈ w.claims, c.pending.id = d.1 ∧ ∃ s ∈ c.pending.slots, s.id = d.2

theorem Consistent.start : World.start.Consistent where
  sound _ _ h  := by simp [World.start] at h
  increasing   := .nil
  drawn _ h    := by simp [World.start] at h
  punctual _ h := by simp [World.start] at h
  once         := .nil
  distinct     := .nil
  settled _ h  := by simp [World.start] at h
  meant _ h    := by simp [World.start] at h

variable {id : ℕ} {e e' : Entry} {nextDue : NextDue} {now clock : Time}

-- The world may grow by what is not about the entry.
theorem Sound.mono (h : w.Sound id e) (hn : w.next ≤ w'.next) (hc : w.claims ⊆ w'.claims)
    (ho : ∀ c ∈ w'.claims, c ∈ w.claims ∨ c.entry ≠ id) (hd : w.deliveries ⊆ w'.deliveries)
    (hf : ∀ x ∈ w'.finished, x ∈ w.finished ∨ ∀ p, e.pending = some p → x.2.id ≠ p.id) : w'.Sound id e where
  fresh := h.fresh.trans_le hn
  whole := h.whole
  kind c hm he := (ho c hm).elim (fun hm => h.kind c hm he) (fun hne => absurd he hne)
  unclaimed hk hs c hm := (ho c hm).elim (fun hm => h.unclaimed hk hs c hm) fun hne => hne
  claimed p hp := by
    obtain ⟨c, hm, ho⟩ := h.claimed p hp
    exact ⟨c, hc hm, ho⟩
  delivered p hp c hm := hd (h.delivered p hp c hm)
  unfinished p hp x hm := (hf x hm).elim (fun hm => h.unfinished p hp x hm) (fun hne => hne p hp)

theorem Sound.eased (h : w.Sound id e) (he : e.Eased e') : w.Sound id e' where
  fresh := h.fresh
  whole := he.whole h.whole
  kind c hm hi := (h.kind c hm hi).trans he.left.symm
  unclaimed hk hs := h.unclaimed (he.left ▸ hk) (he.unclaimed hs)
  claimed p hp := h.claimed p (he.pending hp)
  delivered p hp := h.delivered p (he.pending hp)
  unfinished p hp := h.unfinished p (he.pending hp)

theorem Settled.mono {x : ℕ × Pending} (h : w.Settled x) (hc : w.claims ⊆ w'.claims)
    (hd : w.deliveries ⊆ w'.deliveries) : w'.Settled x := by
  obtain ⟨c, hm, ho, hs⟩ := h
  exact ⟨c, hc hm, ho, fun s hm => hd (hs s hm)⟩

-- Two claims of the same occurrence are the same claim.
theorem Consistent.claim_eq {c c' : Claim} (h : w.Consistent) (hm : c ∈ w.claims) (hm' : c' ∈ w.claims)
    (he : c.pending.id = c'.pending.id) : c = c' := by
  have hn : (w.claims.map fun c => c.pending.id).Nodup := h.increasing.imp fun hlt => hlt.ne
  exact List.inj_on_of_nodup_map hn hm hm' he

theorem Consistent.set (h : w.Consistent) (hs : w.Sound id e) :
    ({ w with document := w.document.set id e } : World).Consistent where
  sound j f hl := by
    by_cases hj : j = id
    case pos =>
      subst hj
      rw [Document.set, AList.lookup_insert] at hl
      cases hl
      exact ⟨hs.fresh, hs.whole, hs.kind, hs.unclaimed, hs.claimed, hs.delivered, hs.unfinished⟩
    case neg =>
      rw [Document.set, AList.lookup_insert_ne hj] at hl
      have hf := h.sound j f hl
      exact ⟨hf.fresh, hf.whole, hf.kind, hf.unclaimed, hf.claimed, hf.delivered, hf.unfinished⟩
  increasing := h.increasing
  drawn      := h.drawn
  punctual   := h.punctual
  once       := h.once
  distinct   := h.distinct
  settled    := h.settled
  meant      := h.meant

-- Nothing but the entries and what is drawn changes, and each entry is sound where it was.
theorem Consistent.quiet (h : w.Consistent) (hn : w.next ≤ w'.next) (hc : w'.claims = w.claims)
    (hf : w'.finished = w.finished) (hd : w'.deliveries = w.deliveries)
    (hs : ∀ id e, w'.document.entries.lookup id = some e → w'.Sound id e) : w'.Consistent where
  sound      := hs
  increasing := hc ▸ h.increasing
  drawn c hm := (h.drawn c (hc ▸ hm)).imp hn.trans_lt' hn.trans_lt'
  punctual   := hc ▸ h.punctual
  once       := hc ▸ h.once
  distinct   := hf ▸ h.distinct
  settled x hm := (h.settled x (hf ▸ hm)).mono (hc ▸ List.Subset.refl _) (hd ▸ List.Subset.refl _)
  meant d hm := by
    obtain ⟨c, hm, hs⟩ := h.meant d (hd ▸ hm)
    exact ⟨c, hc ▸ hm, hs⟩

theorem Sound.quiet (h : w.Sound id e) (hn : w.next ≤ w'.next) (hc : w'.claims = w.claims)
    (hf : w'.finished = w.finished) (hd : w'.deliveries = w.deliveries) : w'.Sound id e :=
  h.mono hn (hc ▸ List.Subset.refl _) (fun _ hm => .inl (hc ▸ hm)) (hd ▸ List.Subset.refl _) fun _ hm => .inl (hf ▸ hm)

theorem Consistent.create {schedule : Schedule} (h : w.Consistent) :
    ({ w with document := w.document.set w.next schedule.new, next := w.next + 1 } : World).Consistent := by
  have hq : ({ w with next := w.next + 1 } : World).Consistent :=
    h.quiet (Nat.le_succ _) rfl rfl rfl fun id e hl => (h.sound id e hl).quiet (Nat.le_succ _) rfl rfl rfl
  refine hq.set ?_
  have hn : ∀ c ∈ w.claims, c.entry ≠ w.next := fun c hm => (h.drawn c hm).left.ne
  refine ⟨Nat.lt_succ_self _, ?_, fun c hm he => absurd he (hn c hm), fun _ _ => hn, ?_, ?_, ?_⟩
  case refine_1 => simp [Entry.Whole, Schedule.new]
  all_goals
    intro p hp
    cases hp

-- One entry that is due becomes pending.
theorem Consistent.claimEntry (h : w.Consistent) : (w.claimEntry now id).Consistent := by
  unfold World.claimEntry
  cases hl : w.document.entries.lookup id
  case none => exact h
  case some e =>
    dsimp only
    split_ifs with hd
    case neg => exact h
    have hs := h.sound id e hl
    have hlt : ∀ c ∈ w.claims, c.pending.id < w.next := fun c hm => (h.drawn c hm).right
    have hk : ∀ c ∈ w.claims ++ [⟨id, e.kind, e.claimed w.next now⟩], c ∈ w.claims ∨ c.entry = id := by
      intro c hm
      obtain hm | hm := List.mem_append.mp hm
      case inl => exact .inl hm
      case inr => exact .inr (List.mem_singleton.mp hm ▸ rfl)
    have hr : ({ w with
        document := w.document.set id (e.claim w.next now)
        next     := w.next + 1
        claims   := w.claims ++ [⟨id, e.kind, e.claimed w.next now⟩] } : World).Sound id (e.claim w.next now) := by
      refine ⟨hs.fresh.trans (Nat.lt_succ_self _), by simp [Entry.Whole, Entry.claim], ?_, ?_, ?_, ?_, ?_⟩
      case refine_1 =>
        intro c hm he
        obtain hm | hm := List.mem_append.mp hm
        case inl => exact hs.kind c hm he
        case inr => exact List.mem_singleton.mp hm ▸ rfl
      case refine_2 => simp [Entry.claim]
      case refine_3 =>
        rintro p ⟨⟩
        exact ⟨_, List.mem_append_right _ (List.mem_singleton.mpr rfl), rfl, rfl, rfl⟩
      case refine_4 =>
        rintro p ⟨⟩ c hm
        cases hm
      case refine_5 =>
        rintro p ⟨⟩ x hm
        obtain ⟨c, hc, ho, -⟩ := h.settled x hm
        exact ne_of_lt (ho.right.left ▸ hlt c hc)
    refine ⟨?_, ?_, ?_, ?_, ?_, h.distinct, ?_, ?_⟩
    case refine_1 =>
      intro j f hf
      by_cases hj : j = id
      case pos =>
        subst hj
        rw [Document.set, AList.lookup_insert] at hf
        cases hf
        exact hr
      case neg =>
        rw [Document.set, AList.lookup_insert_ne hj] at hf
        refine (h.sound j f hf).mono (Nat.le_succ _) (List.subset_append_left _ _) ?_ (List.Subset.refl _) fun _ => .inl
        exact fun c hm => (hk c hm).imp_right fun he hc => hj (hc.symm.trans he)
    case refine_2 =>
      rw [List.map_append, List.pairwise_append]
      refine ⟨h.increasing, List.pairwise_singleton _ _, ?_⟩
      intro a ha b hb
      obtain ⟨c, hm, rfl⟩ := List.mem_map.mp ha
      rw [List.map_singleton, List.mem_singleton] at hb
      exact hb ▸ hlt c hm
    case refine_3 =>
      intro c hm
      obtain hm | hm := List.mem_append.mp hm
      case inl => exact (h.drawn c hm).imp Nat.lt_succ_of_lt Nat.lt_succ_of_lt
      case inr =>
        cases List.mem_singleton.mp hm
        exact ⟨hs.fresh.trans (Nat.lt_succ_self _), Nat.lt_succ_self _⟩
    case refine_4 =>
      intro c hm
      obtain hm | hm := List.mem_append.mp hm
      case inl => exact h.punctual c hm
      case inr =>
        cases List.mem_singleton.mp hm
        exact hd.right
    case refine_5 =>
      by_cases ho : e.kind.once
      case pos =>
        simp only [List.filter_append, List.filter_cons, ho, if_true, List.filter_nil, List.map_append, List.map_cons,
          List.map_nil, List.nodup_append]
        refine ⟨h.once, List.nodup_singleton _, ?_⟩
        intro a ha b hb he
        obtain ⟨c, hm, rfl⟩ := List.mem_map.mp ha
        exact hs.unclaimed ho (.inr hd.left) c (List.mem_of_mem_filter hm) (he.trans (List.mem_singleton.mp hb))
      case neg => simpa [List.filter_append, ho] using h.once
    case refine_6 => exact fun x hm => (h.settled x hm).mono (List.subset_append_left _ _) (List.Subset.refl _)
    case refine_7 =>
      intro d hm
      obtain ⟨c, hm, hs⟩ := h.meant d hm
      exact ⟨c, List.mem_append_left _ hm, hs⟩

-- The occurrence that is finished is the one that the entry has, and its slots have been delivered.
theorem Consistent.finish (h : w.Consistent) (hl : w.document.entries.lookup id = some e)
    (hd : ∀ p, e.pending = some p → ∀ s ∈ p.slots, (p.id, s.id) ∈ w.deliveries) :
    ({ w with
      document := w.document.set id (e.finish nextDue now)
      finished := w.finished ++ (e.pending.map fun p => (id, p)).toList } : World).Consistent := by
  have hs := h.sound id e hl
  cases hp : e.pending
  case none =>
    have hne : e.state ≠ .pending := fun hc => hs.whole.mp hc hp
    simpa [Entry.finish_of_ne hne] using h.set hs
  case some p =>
    have he : e.state = .pending := hs.whole.mpr (by simp [hp])
    obtain ⟨c, hc, ho⟩ := hs.claimed p hp
    have hw : ({ w with finished := w.finished ++ [(id, p)] } : World).Settled (id, p) := ⟨c, hc, ho, hd p hp⟩
    refine ⟨?_, h.increasing, h.drawn, h.punctual, h.once, ?_, ?_, h.meant⟩
    case refine_1 =>
      intro j f hf
      by_cases hj : j = id
      case pos =>
        subst hj
        rw [Document.set, AList.lookup_insert] at hf
        cases hf
        refine ⟨hs.fresh, ?_, ?_, ?_, ?_, ?_, ?_⟩
        case refine_1 => simp [Entry.Whole, Entry.finish_pending he, Entry.finish_ne he]
        case refine_2 => exact fun c hm hi => (hs.kind c hm hi).trans Entry.finish_kind.symm
        case refine_3 =>
          intro hk hr
          rw [Entry.finish_kind] at hk
          simp [Entry.finish_once he hk] at hr
        all_goals simp [Entry.finish_pending he]
      case neg =>
        rw [Document.set, AList.lookup_insert_ne hj] at hf
        refine (h.sound j f hf).mono le_rfl (List.Subset.refl _) (fun _ => .inl) (List.Subset.refl _) ?_
        intro x hm
        refine (List.mem_append.mp hm).imp_right fun hx q hq heq => hj ?_
        cases List.mem_singleton.mp hx
        obtain ⟨c', hc', ho'⟩ := (h.sound j f hf).claimed q hq
        have hcc := h.claim_eq hc hc' (ho.right.left.trans (heq.trans ho'.right.left.symm))
        exact ho'.left.symm.trans ((congrArg Claim.entry hcc).symm.trans ho.left)
    case refine_2 =>
      simp only [Option.map_some, Option.toList_some, List.map_append, List.map_cons, List.map_nil, List.nodup_append]
      refine ⟨h.distinct, List.nodup_singleton _, ?_⟩
      intro a ha b hb
      obtain ⟨x, hm, rfl⟩ := List.mem_map.mp ha
      exact List.mem_singleton.mp hb ▸ hs.unfinished p hp x hm
    case refine_3 =>
      intro x hm
      obtain hm | hm := List.mem_append.mp hm
      case inl => exact (h.settled x hm).mono (List.Subset.refl _) (List.Subset.refl _)
      case inr =>
        cases List.mem_singleton.mp hm
        exact hw

theorem Consistent.acknowledge {c : ℕ} (h : w.Consistent) (hl : w.document.entries.lookup id = some e)
    (hd : ∀ p, e.pending = some p → (p.id, c) ∈ w.deliveries) :
    ({ w with document := w.document.set id (e.acknowledge c) } : World).Consistent := by
  have hs := h.sound id e hl
  refine h.set ⟨hs.fresh, ?_, ?_, ?_, ?_, ?_, ?_⟩
  case refine_1 =>
    unfold Entry.Whole Entry.acknowledge
    split_ifs
    case pos => simpa [Entry.Whole] using hs.whole
    case neg => exact hs.whole
  case refine_2 => exact fun c hm hi => (hs.kind c hm hi).trans Entry.acknowledge_kind.symm
  case refine_3 =>
    rw [Entry.acknowledge_kind, Entry.acknowledge_state]
    exact hs.unclaimed
  all_goals
    intro p hp
    obtain ⟨p₀, hp₀, rfl⟩ := Entry.acknowledge_pending hs.whole hp
  case refine_4 => exact hs.claimed p₀ hp₀
  case refine_5 =>
    intro d hm
    obtain hm | hm := List.mem_append.mp hm
    case inl => exact hs.delivered p₀ hp₀ d hm
    case inr => exact List.mem_singleton.mp hm ▸ hd p₀ hp₀
  case refine_6 => exact hs.unfinished p₀ hp₀

theorem Consistent.deliver {d : ℕ × ℕ} (h : w.Consistent)
    (hd : ∃ c ∈ w.claims, c.pending.id = d.1 ∧ ∃ s ∈ c.pending.slots, s.id = d.2) :
    ({ w with deliveries := w.deliveries ++ [d] } : World).Consistent where
  sound j f hf := (h.sound j f hf).mono le_rfl (List.Subset.refl _) (fun _ => .inl) (List.subset_append_left _ _) fun _ => .inl
  increasing   := h.increasing
  drawn        := h.drawn
  punctual     := h.punctual
  once         := h.once
  distinct     := h.distinct
  settled x hm := (h.settled x hm).mono (List.Subset.refl _) (List.subset_append_left _ _)
  meant x hm   := (List.mem_append.mp hm).elim (h.meant x) fun hx => List.mem_singleton.mp hx ▸ hd

-- The pass whose lease is in the document, expired or not.
def Held (w : World) (token : ℕ) : Prop :=
  w.document.lease.map Lease.token = some token

-- While the lease is a pass's own, nothing but a close happens to what it is still to deliver.
def Listed (w : World) (token : ℕ) (todo : List ℕ) : Prop :=
  w.Held token → ∀ id ∈ todo, ∀ e, w.document.entries.lookup id = some e → e.Closed ∨ e.state = .pending

structure Delivering (w : World) (token : ℕ) (job : Job) : Prop where
  listed  : w.Listed token job.todo
  claimed : ∃ c ∈ w.claims, c.Of job.entry job.pending
  slots   : job.pending.slots = job.done ++ job.rest
  known   : ∀ c ∈ job.pending.delivered, (job.pending.id, c) ∈ w.deliveries
  done    : job.failed = false → ∀ c ∈ job.done, (job.pending.id, c.id) ∈ w.deliveries
  current : w.Held token → ∀ e, w.document.entries.lookup job.entry = some e →
    e.Closed ∨ e.state = .pending ∧ ∀ p, e.pending = some p → p.id = job.pending.id

def Placed (w : World) (token : ℕ) : Position → Prop
  | .listing todo                            => w.Listed token todo
  | .marking id todo                         =>
    w.Listed token todo ∧ (w.Held token → ∀ e, w.document.entries.lookup id = some e → e.Closed)
  | .slot job | .checked job | .verified job => w.Delivering token job
  | .delivered job                           =>
    w.Delivering token job ∧ ∀ c, job.rest.head? = some c → (job.pending.id, c.id) ∈ w.deliveries
  | _                                        => True

structure Good (w : World) (token : ℕ) (position : Position) : Prop where
  nodup  : position.entries.Nodup
  drawn  : ∀ id ∈ position.entries, id < w.next
  placed : w.Placed token position

structure Invariant (w : World) : Prop where
  consistent : w.Consistent
  passes     : ∀ token pass, w.passes token = some pass → w.Good token pass.position

-- What the others leave of the entries while the lease is a pass's own.
structure Undisturbed (w w' : World) (token : ℕ) : Prop where
  next       : w.next ≤ w'.next
  claims     : w.claims ⊆ w'.claims
  deliveries : w.deliveries ⊆ w'.deliveries
  held       : w'.Held token → w.Held token
  eased      : w'.Held token → ∀ id e', id < w.next → w'.document.entries.lookup id = some e' →
    ∃ e, w.document.entries.lookup id = some e ∧ e.Eased e'

variable {token : ℕ} {todo : List ℕ} {job : Job} {position : Position} {ok : Bool}

theorem Listed.mono (h : w.Listed token todo) (hu : w.Undisturbed w' token) (hn : ∀ id ∈ todo, id < w.next) :
    w'.Listed token todo := by
  intro hh id hm e' hl
  obtain ⟨e, he, hs⟩ := hu.eased hh id e' (hn id hm) hl
  obtain hc | hp := h (hu.held hh) id hm e he
  case inl => exact .inl (hs.closed hc)
  case inr => exact hs.closed_or hp

theorem Delivering.mono (h : w.Delivering token job) (hu : w.Undisturbed w' token)
    (hn : ∀ id ∈ job.entry :: job.todo, id < w.next) : w'.Delivering token job where
  listed := h.listed.mono hu fun id hm => hn id (List.mem_cons_of_mem _ hm)
  claimed := by
    obtain ⟨c, hm, ho⟩ := h.claimed
    exact ⟨c, hu.claims hm, ho⟩
  slots := h.slots
  known c hm := hu.deliveries (h.known c hm)
  done hf c hm := hu.deliveries (h.done hf c hm)
  current hh e' hl := by
    obtain ⟨e, he, hs⟩ := hu.eased hh job.entry e' (hn _ List.mem_cons_self) hl
    obtain hc | ⟨hp, hi⟩ := h.current (hu.held hh) e he
    case inl => exact .inl (hs.closed hc)
    case inr => exact (hs.closed_or hp).imp_right fun hp => ⟨hp, fun p he => hi p (hs.pending he)⟩

theorem Good.mono (h : w.Good token position) (hu : w.Undisturbed w' token) : w'.Good token position where
  nodup       := h.nodup
  drawn id hm := (h.drawn id hm).trans_le hu.next
  placed      := by
    have hp := h.placed
    have hn := h.drawn
    cases position
    case listing todo   => exact Listed.mono hp hu hn
    case marking id todo =>
      refine ⟨Listed.mono hp.left hu fun j hm => hn j (List.mem_cons_of_mem _ hm), fun hh e' hl => ?_⟩
      obtain ⟨e, he, hs⟩ := hu.eased hh id e' (hn id List.mem_cons_self) hl
      exact hs.closed (hp.right (hu.held hh) e he)
    case slot job       => exact Delivering.mono hp hu hn
    case checked job    => exact Delivering.mono hp hu hn
    case verified job   => exact Delivering.mono hp hu hn
    case delivered job  => exact ⟨Delivering.mono hp.left hu hn, fun c hc => hu.deliveries (hp.right c hc)⟩
    all_goals trivial

theorem Good.left (h : position = .looked ∨ position = .acquired ∨ position = .claimed ∨ position = .leaving) :
    w.Good token position := by
  obtain rfl | rfl | rfl | rfl := h <;> exact ⟨.nil, fun _ hm => absurd hm List.not_mem_nil, trivial⟩

theorem Undisturbed.of_same (hd : w'.document.entries = w.document.entries) (hh : w'.Held token → w.Held token)
    (hn : w.next ≤ w'.next) (hc : w.claims ⊆ w'.claims) (hm : w.deliveries ⊆ w'.deliveries) :
    w.Undisturbed w' token :=
  ⟨hn, hc, hm, hh, fun _ _ e' _ hl => ⟨e', hd ▸ hl, rfl, .inr (.inl ⟨rfl, rfl⟩)⟩⟩

theorem Undisturbed.of_other (hh : ¬w'.Held token) (hn : w.next ≤ w'.next) (hc : w.claims ⊆ w'.claims)
    (hm : w.deliveries ⊆ w'.deliveries) : w.Undisturbed w' token :=
  ⟨hn, hc, hm, fun h => absurd h hh, fun h => absurd h hh⟩

-- The change of one entry under nobody's lease.
theorem Undisturbed.of_eased (hl : w.document.entries.lookup id = some e) (he : e.Eased e') :
    w.Undisturbed { w with document := w.document.set id e' } token := by
  refine ⟨le_rfl, List.Subset.refl _, List.Subset.refl _, fun hh => hh, fun _ j f _ hf => ?_⟩
  by_cases hj : j = id
  case pos =>
    subst hj
    rw [Document.set, AList.lookup_insert] at hf
    cases hf
    exact ⟨e, hl, he⟩
  case neg =>
    rw [Document.set, AList.lookup_insert_ne hj] at hf
    exact ⟨f, hf, rfl, .inr (.inl ⟨rfl, rfl⟩)⟩

theorem Consistent.same (h : w.Consistent) (he : w'.document.entries = w.document.entries) (hn : w.next ≤ w'.next)
    (hc : w'.claims = w.claims) (hf : w'.finished = w.finished) (hd : w'.deliveries = w.deliveries) : w'.Consistent :=
  h.quiet hn hc hf hd fun id e hl => (h.sound id e (he ▸ hl)).quiet hn hc hf hd

-- Everybody but one pass is left undisturbed.
theorem Invariant.of_pass (token : ℕ) (h : w.Invariant) (hc : w'.Consistent) (hp : ∀ t ≠ token, w'.passes t = w.passes t)
    (hu : ∀ t ≠ token, w.Undisturbed w' t)
    (hg : ∀ pass, w'.passes token = some pass → w'.Good token pass.position) : w'.Invariant where
  consistent := hc
  passes t pass ht := by
    by_cases he : t = token
    case pos => exact he ▸ hg pass (he ▸ ht)
    case neg => exact (h.passes t pass (hp t he ▸ ht)).mono (hu t he)

theorem Invariant.of_all (h : w.Invariant) (hc : w'.Consistent) (hp : w'.passes = w.passes)
    (hu : ∀ t, w.Undisturbed w' t) : w'.Invariant :=
  ⟨hc, fun t pass ht => (h.passes t pass (hp ▸ ht)).mono (hu t)⟩

theorem passes_move_self : (w.move token now position).passes token = some ⟨now, position⟩ :=
  Function.update_self _ _ _

theorem passes_move_ne {t : ℕ} (h : t ≠ token) : (w.move token now position).passes t = w.passes t :=
  Function.update_of_ne h _ _

theorem Invariant.move (h : w.Invariant) (hg : w.Good token position) : (w.move token now position).Invariant := by
  have hu : ∀ t, w.Undisturbed (w.move token now position) t := fun _ =>
    .of_same rfl (fun hh => hh) le_rfl (List.Subset.refl _) (List.Subset.refl _)
  refine h.of_pass token (h.consistent.same rfl le_rfl rfl rfl rfl) ?_ (fun t _ => hu t) ?_
  case refine_1 => exact fun t ht => passes_move_ne ht
  case refine_2 =>
    intro pass hp
    rw [passes_move_self] at hp
    cases hp
    exact hg.mono (hu token)

theorem held_of_holds (h : w.document.holds token clock) : w.Held token := by
  unfold Document.holds at h
  unfold Held
  cases hl : w.document.lease
  case none => simp [hl] at h
  case some held =>
    rw [hl, Option.any_some, Bool.and_eq_true, decide_eq_true_eq] at h
    exact congrArg some h.left

theorem Held.eq {t : ℕ} (h : w.Held token) (ht : w.Held t) : t = token :=
  Option.some.inj (ht.symm.trans h)

-- A change of a pass under its lease, which is its own only as long as no other has acquired it.
theorem Invariant.under {change : World → World} (h : w.Invariant)
    (hl : (change w).document.lease = w.document.lease) (hp : ∀ t ≠ token, (change w).passes t = w.passes t)
    (hn : w.next ≤ (change w).next) (hm : w.claims ⊆ (change w).claims) (hd : (change w).deliveries = w.deliveries)
    (hc : w.Held token → (change w).Consistent)
    (hg : w.Held token → ∀ pass, (change w).passes token = some pass → (change w).Good token pass.position) :
    (w.under token now clock change).Invariant := by
  unfold World.under
  split_ifs with hh
  case neg => exact h.move (.left (.inr (.inr (.inr rfl))))
  have hw := held_of_holds hh
  refine h.of_pass token ((hc hw).same rfl le_rfl rfl rfl rfl) hp ?_ fun pass hp => ?_
  case refine_1 =>
    refine fun t ht => .of_other (fun hw' => ht (hw.eq ?_)) hn hm (hd ▸ List.Subset.refl _)
    exact (congrArg (Option.map Lease.token) hl).symm.trans hw'
  case refine_2 =>
    exact (hg hw pass hp).mono
      (.of_same rfl (fun hh => hh) le_rfl (List.Subset.refl _) (List.Subset.refl _))

-- What a claim leaves alone.
structure Claimed (w w' : World) : Prop where
  lease      : w'.document.lease = w.document.lease
  passes     : w'.passes = w.passes
  next       : w.next ≤ w'.next
  claims     : w.claims ⊆ w'.claims
  finished   : w'.finished = w.finished
  deliveries : w'.deliveries = w.deliveries
  holders    : w'.holders = w.holders
  writes     : w'.writes = w.writes

theorem Claimed.refl : w.Claimed w :=
  ⟨rfl, rfl, le_rfl, List.Subset.refl _, rfl, rfl, rfl, rfl⟩

theorem Claimed.trans {w₀ : World} (h : w₀.Claimed w) (h' : w.Claimed w') : w₀.Claimed w' :=
  ⟨h'.lease.trans h.lease, h'.passes.trans h.passes, h.next.trans h'.next, List.Subset.trans h.claims h'.claims,
    h'.finished.trans h.finished, h'.deliveries.trans h.deliveries, h'.holders.trans h.holders, h'.writes.trans h.writes⟩

theorem claimed_claimEntry : w.Claimed (w.claimEntry now id) := by
  unfold World.claimEntry
  cases w.document.entries.lookup id
  case none => exact .refl
  case some e =>
    dsimp only
    split_ifs
    case pos => exact ⟨rfl, rfl, Nat.le_succ _, List.subset_append_left _ _, rfl, rfl, rfl, rfl⟩
    case neg => exact .refl

theorem claimed_claim : w.Claimed (w.claim now) := by
  unfold World.claim
  generalize w.document.entries.keys = keys
  induction keys generalizing w
  case nil          => exact .refl
  case cons id _ hi => exact claimed_claimEntry.trans hi

theorem Consistent.claim (h : w.Consistent) : (w.claim now).Consistent := by
  unfold World.claim
  generalize w.document.entries.keys = keys
  induction keys generalizing w
  case nil          => exact h
  case cons id _ hi => exact hi h.claimEntry

theorem Consistent.reap (h : w.Consistent) :
    ({ w with document := w.document.reap now } : World).Consistent :=
  h.quiet le_rfl rfl rfl rfl fun id e hl => (h.sound id e (KeyTable.lookup_filter.mp hl).left).quiet le_rfl rfl rfl rfl

theorem Delivering.advance {failed : Bool} (h : w.Delivering token job)
    (hd : failed = false → ∀ c, job.rest.head? = some c → (job.pending.id, c.id) ∈ w.deliveries) :
    w.Delivering token (World.advance job failed) := by
  unfold World.advance
  cases hr : job.rest
  case nil => exact h
  case cons c rest =>
    refine ⟨h.listed, h.claimed, ?_, h.known, ?_, h.current⟩
    case refine_1 => simp [h.slots, hr]
    case refine_2 =>
      intro hf s hm
      rw [Bool.or_eq_false_iff] at hf
      obtain hm | hm := List.mem_append.mp hm
      case inl => exact h.done hf.left s hm
      case inr => exact List.mem_singleton.mp hm ▸ hd hf.right c (by rw [hr, List.head?_cons])

theorem entries_advance {failed : Bool} :
    (Position.slot (World.advance job failed)).entries = job.entry :: job.todo := by
  unfold World.advance
  cases job.rest <;> rfl

theorem Good.slot {failed : Bool} (hn : (job.entry :: job.todo).Nodup) (hl : ∀ id ∈ job.entry :: job.todo, id < w.next)
    (h : w.Delivering token (World.advance job failed)) : w.Good token (.slot (World.advance job failed)) := by
  refine ⟨?_, ?_, h⟩
  case refine_1 => rwa [entries_advance]
  case refine_2 => rwa [entries_advance]

-- The first reading of what there is to deliver.
theorem Consistent.good_listing (h : w.Consistent) :
    w.Good token (.listing ((w.document.entries.toList.filter fun x => x.2.state = .pending).map Prod.fst)) := by
  have hm : ∀ id ∈ (w.document.entries.toList.filter fun x => x.2.state = .pending).map Prod.fst,
      ∃ e, w.document.entries.lookup id = some e ∧ e.state = .pending := by
    intro id hm
    obtain ⟨⟨j, e⟩, hx, rfl⟩ := List.mem_map.mp hm
    obtain ⟨hx, hs⟩ := List.mem_filter.mp hx
    exact ⟨e, KeyTable.mem_toList.mp hx, of_decide_eq_true hs⟩
  refine ⟨KeyTable.nodup_toList.sublist (List.filter_sublist.map _), fun id hi => ?_, fun _ id hi e hl => ?_⟩
  case refine_1 =>
    obtain ⟨e, hl, -⟩ := hm id hi
    exact (h.sound id e hl).fresh
  case refine_2 =>
    obtain ⟨f, hf, hs⟩ := hm id hi
    cases hl.symm.trans hf
    exact .inr hs

-- What a pass reads of the entry that it is to deliver next.
theorem Good.good_slot {p : Pending} (hg : w.Good token (.listing (id :: todo))) (hs : w.Sound id e)
    (hl : w.document.entries.lookup id = some e) (hp : e.pending = some p) :
    w.Good token (.slot ⟨id, p, [], p.slots, false, todo⟩) := by
  refine ⟨hg.nodup, hg.drawn, fun hh j hm => hg.placed hh j (List.mem_cons_of_mem _ hm), hs.claimed p hp, rfl,
    hs.delivered p hp, fun _ _ hm => absurd hm List.not_mem_nil, fun _ f hf => ?_⟩
  cases hl.symm.trans hf
  refine .inr ⟨hs.whole.mpr (by simp [hp]), fun q hq => ?_⟩
  cases hp.symm.trans hq
  rfl

theorem Good.good_marking (hg : w.Good token (.listing (id :: todo))) (hs : w.Sound id e)
    (hl : w.document.entries.lookup id = some e) (hp : e.pending = none) : w.Good token (.marking id todo) := by
  refine ⟨hg.nodup, hg.drawn, fun hh j hm => hg.placed hh j (List.mem_cons_of_mem _ hm), fun hh f hf => ?_⟩
  cases hl.symm.trans hf
  obtain hc | hc := hg.placed hh id List.mem_cons_self e hl
  case inl => exact hc
  case inr => exact absurd hp (hs.whole.mp hc)

-- An entry that is not on the list may change in any way.
theorem Listed.set (h : w.Listed token todo) (hi : id ∉ todo) :
    ({ w with document := w.document.set id e } : World).Listed token todo := by
  intro hh j hm f hf
  rw [Document.set, AList.lookup_insert_ne (ne_of_mem_of_not_mem hm hi)] at hf
  exact h hh j hm f hf

theorem Invariant.forget (h : w.Invariant) :
    ({ w with passes := Function.update w.passes token none } : World).Invariant := by
  refine h.of_pass token (h.consistent.same rfl le_rfl rfl rfl rfl) ?_ ?_ ?_
  case refine_1 => exact fun t ht => Function.update_of_ne ht _ _
  case refine_2 =>
    exact fun t _ => .of_same rfl (fun hh => hh) le_rfl (List.Subset.refl _) (List.Subset.refl _)
  case refine_3 =>
    intro pass hp
    simp at hp

theorem Invariant.looked (h : w.Invariant) : (w.proceed nextDue token clock ok now .looked).Invariant := by
  unfold World.proceed
  dsimp only
  split_ifs
  case pos => exact h.forget
  case neg =>
    refine h.of_pass token (h.consistent.same rfl le_rfl rfl rfl rfl) ?_ ?_ ?_
    case refine_1 => exact fun t ht => passes_move_ne ht
    case refine_2 =>
      exact fun t ht => .of_other (fun hh => ht (Option.some.inj hh).symm) le_rfl (List.Subset.refl _) (List.Subset.refl _)
    case refine_3 =>
      intro pass hp
      cases (passes_move_self (w := w)).symm.trans hp
      exact .left (.inr (.inl rfl))

theorem Invariant.acquired (h : w.Invariant) : (w.proceed nextDue token clock ok now .acquired).Invariant := by
  have hf : w.Claimed (w.claim now) := claimed_claim
  rw [World.proceed]
  refine h.under hf.lease ?_ hf.next hf.claims hf.deliveries ?_ ?_
  case refine_1 => exact fun t ht => (passes_move_ne ht).trans (congrFun hf.passes t)
  case refine_2 => exact fun _ => (h.consistent.claim).same rfl le_rfl rfl rfl rfl
  case refine_3 =>
    intro _ pass hp
    cases (passes_move_self).symm.trans hp
    exact .left (.inr (.inr (.inl rfl)))

theorem Invariant.reaping (h : w.Invariant) : (w.proceed nextDue token clock ok now (.listing [])).Invariant := by
  rw [World.proceed]
  refine h.under rfl (fun t ht => passes_move_ne ht) le_rfl (List.Subset.refl _) rfl ?_ ?_
  case refine_1 => exact fun _ => h.consistent.reap.same rfl le_rfl rfl rfl rfl
  case refine_2 =>
    intro _ pass hp
    cases (passes_move_self).symm.trans hp
    exact .left (.inr (.inr (.inr rfl)))

theorem Invariant.listing (h : w.Invariant) (hg : w.Good token (.listing (id :: todo))) :
    (w.proceed nextDue token clock ok now (.listing (id :: todo))).Invariant := by
  rw [World.proceed]
  cases hl : w.document.entries.lookup id
  case none => exact h.move (.left (.inr (.inr (.inr rfl))))
  case some e =>
    have hs := h.consistent.sound id e hl
    cases hp : e.pending
    case none =>
      simp only [hp]
      exact h.move (hg.good_marking hs hl hp)
    case some p =>
      simp only [hp]
      exact h.move (hg.good_slot hs hl hp)

theorem Invariant.marking (h : w.Invariant) (hg : w.Good token (.marking id todo)) :
    (w.proceed nextDue token clock ok now (.marking id todo)).Invariant := by
  rw [World.proceed]
  cases hl : w.document.entries.lookup id
  case none => exact h.move (.left (.inr (.inr (.inr rfl))))
  case some e =>
    have hs := h.consistent.sound id e hl
    refine h.under rfl (fun t ht => passes_move_ne ht) le_rfl (List.Subset.refl _) rfl ?_ ?_
    case refine_1 =>
      intro hh
      exact (h.consistent.set (hs.eased ((hg.placed.right hh e hl).eased_stale hs.whole))).same rfl le_rfl rfl rfl rfl
    case refine_2 =>
      intro hh pass hp
      cases (passes_move_self).symm.trans hp
      refine ⟨(List.nodup_cons.mp hg.nodup).right, fun j hm => hg.drawn j (List.mem_cons_of_mem _ hm), ?_⟩
      exact hg.placed.left.set (List.nodup_cons.mp hg.nodup).left

theorem Good.rest (hg : w.Good token (.slot job)) : w.Good token (.listing job.todo) :=
  ⟨(List.nodup_cons.mp hg.nodup).right, fun id hm => hg.drawn id (List.mem_cons_of_mem _ hm), hg.placed.listed⟩

-- Once every slot of an occurrence is through, without a failure, it is finished.
theorem Invariant.finishing (h : w.Invariant) (hg : w.Good token (.slot job)) (hr : job.rest = []) :
    (w.proceed nextDue token clock ok now (.slot job)).Invariant := by
  rw [World.proceed, hr]
  dsimp only
  split_ifs with hf
  case pos => exact h.move hg.rest
  cases hl : w.document.entries.lookup job.entry
  case none => exact h.move (.left (.inr (.inr (.inr rfl))))
  case some e =>
    have hs := h.consistent.sound job.entry e hl
    have hd := hg.placed
    refine h.under rfl (fun t ht => passes_move_ne ht) le_rfl (List.Subset.refl _) rfl ?_ ?_
    case refine_1 =>
      refine fun hh => (h.consistent.finish hl fun p hp s hm => ?_).same rfl le_rfl rfl rfl rfl
      obtain hc | ⟨-, hi⟩ := hd.current hh e hl
      case inl => exact absurd hp (by simp [hs.whole.pending_of_ne hc.ne_pending])
      obtain ⟨c, hc, ho⟩ := hs.claimed p hp
      obtain ⟨c', hc', ho'⟩ := hd.claimed
      have he : c = c' := h.consistent.claim_eq hc hc' (ho.right.left.trans ((hi p hp).trans ho'.right.left.symm))
      subst he
      have hds : s ∈ job.done := by
        have hslots := ho.right.right.symm.trans (ho'.right.right.trans hd.slots)
        rw [hr, List.append_nil] at hslots
        exact hslots ▸ hm
      exact hi p hp ▸ hd.done (Bool.eq_false_iff.mpr hf) s hds
    case refine_2 =>
      intro hh pass hp
      cases (passes_move_self).symm.trans hp
      exact ⟨hg.rest.nodup, hg.rest.drawn, hg.rest.placed.set (List.nodup_cons.mp hg.nodup).left⟩

theorem Invariant.slot (h : w.Invariant) (hg : w.Good token (.slot job)) :
    (w.proceed nextDue token clock ok now (.slot job)).Invariant := by
  cases hr : job.rest
  case nil => exact h.finishing hg hr
  case cons c rest =>
    rw [World.proceed, hr]
    dsimp only
    cases w.document.entries.lookup job.entry
    case none => exact h.move (.left (.inr (.inr (.inr rfl))))
    case some e =>
      dsimp only
      split_ifs
      case pos => exact h.move ⟨hg.nodup, hg.drawn, hg.placed⟩
      case neg => exact h.move hg.rest

theorem Invariant.checked (h : w.Invariant) (hg : w.Good token (.checked job)) :
    (w.proceed nextDue token clock ok now (.checked job)).Invariant := by
  rw [World.proceed]
  split_ifs with hh hd
  case pos =>
    refine h.move (.slot hg.nodup hg.drawn (Delivering.advance hg.placed fun _ c hc => ?_))
    rw [hc, Option.any_some, decide_eq_true_eq] at hd
    exact hg.placed.known c.id hd
  case neg => exact h.move ⟨hg.nodup, hg.drawn, hg.placed⟩
  case neg => exact h.move (.left (.inr (.inr (.inr rfl))))

theorem Invariant.verified (h : w.Invariant) (hg : w.Good token (.verified job)) :
    (w.proceed nextDue token clock ok now (.verified job)).Invariant := by
  rw [World.proceed]
  split_ifs
  case neg =>
    exact h.move (.slot hg.nodup hg.drawn (Delivering.advance hg.placed fun hf => absurd hf (by simp)))
  have hu : ∀ d t, w.Undisturbed { w with deliveries := w.deliveries ++ d } t := fun d t =>
    .of_same rfl (fun hh => hh) le_rfl (List.Subset.refl _) (List.subset_append_left _ _)
  have hc : ∀ c, job.rest.head? = some c →
      ({ w with deliveries := w.deliveries ++ [(job.pending.id, c.id)] } : World).Consistent := by
    intro c hr
    obtain ⟨c', hc', ho⟩ := Delivering.claimed hg.placed
    refine h.consistent.deliver ⟨c', hc', ho.right.left, c, ?_, rfl⟩
    rw [ho.right.right, Delivering.slots hg.placed]
    exact List.mem_append_right _ (List.mem_of_mem_head? hr)
  have hk : ∀ d, ({ w with deliveries := w.deliveries ++ d } : World).Consistent →
      (∀ c, job.rest.head? = some c → (job.pending.id, c.id) ∈ w.deliveries ++ d) →
      ({ w.move token now (.delivered job) with deliveries := w.deliveries ++ d } : World).Invariant := by
    intro d hw hd
    refine Invariant.move (w := { w with deliveries := w.deliveries ++ d }) (h.of_all hw rfl (hu d)) ?_
    have hv := hg.mono (hu d token)
    exact ⟨hv.nodup, hv.drawn, hv.placed, hd⟩
  cases hr : job.rest.head?
  case none =>
    refine hk [] (by simpa using h.consistent) fun c hc => ?_
    rw [hr] at hc
    cases hc
  case some c =>
    refine hk _ (hc c hr) fun c' hc' => ?_
    cases hr.symm.trans hc'
    exact List.mem_append_right _ List.mem_cons_self

theorem Invariant.delivered (h : w.Invariant) (hg : w.Good token (.delivered job)) :
    (w.proceed nextDue token clock ok now (.delivered job)).Invariant := by
  rw [World.proceed]
  cases hl : w.document.entries.lookup job.entry
  case none => exact h.move (.left (.inr (.inr (.inr rfl))))
  case some e =>
    cases hr : job.rest.head?
    case none => exact h.move (.left (.inr (.inr (.inr rfl))))
    case some c =>
      have hs := h.consistent.sound job.entry e hl
      obtain ⟨hd, hm⟩ := hg.placed
      refine h.under rfl (fun t ht => passes_move_ne ht) le_rfl (List.Subset.refl _) rfl ?_ ?_
      case refine_1 =>
        refine fun hh => (h.consistent.acknowledge hl fun p hp => ?_).same rfl le_rfl rfl rfl rfl
        obtain hc | ⟨-, hi⟩ := hd.current hh e hl
        case inl => exact absurd hp (by simp [hs.whole.pending_of_ne hc.ne_pending])
        exact hi p hp ▸ hm c hr
      case refine_2 =>
        intro hh pass hp
        cases (passes_move_self).symm.trans hp
        have hn : job.entry ∉ job.todo := (List.nodup_cons.mp hg.nodup).left
        refine .slot hg.nodup hg.drawn (Delivering.advance ?_ fun _ s hs => ?_)
        case refine_1 =>
          refine ⟨hd.listed.set hn, hd.claimed, hd.slots, hd.known, hd.done, fun _ f hf => ?_⟩
          rw [Document.set, AList.lookup_insert] at hf
          cases hf
          refine (hd.current hh e hl).imp (fun hc => ?_) fun hp => ?_
          case refine_1 => rwa [Entry.Closed, Entry.acknowledge_state]
          case refine_2 =>
            refine ⟨Entry.acknowledge_state.trans hp.left, fun p hq => ?_⟩
            obtain ⟨p₀, hp₀, rfl⟩ := Entry.acknowledge_pending hs.whole hq
            exact hp.right p₀ hp₀
        case refine_2 => exact hm s hs

theorem Invariant.leaving (h : w.Invariant) : (w.proceed nextDue token clock ok now .leaving).Invariant := by
  rw [World.proceed]
  refine Invariant.forget (w := { w with document := w.document.release token })
    (h.of_all (h.consistent.same rfl le_rfl rfl rfl rfl) rfl fun t => ?_)
  refine .of_same rfl (fun hh => ?_) le_rfl (List.Subset.refl _) (List.Subset.refl _)
  obtain ⟨held, hl, ht⟩ := Option.map_eq_some_iff.mp hh
  exact Option.map_eq_some_iff.mpr ⟨held, (Option.filter_eq_some_iff.mp hl).left, ht⟩

theorem Invariant.proceed (h : w.Invariant) (hg : w.Good token position) :
    (w.proceed nextDue token clock ok now position).Invariant := by
  cases position
  case looked    => exact h.looked
  case acquired  => exact h.acquired
  case claimed   => exact h.move h.consistent.good_listing
  case listing l =>
    cases l
    case nil  => exact h.reaping
    case cons => exact h.listing hg
  case marking   => exact h.marking hg
  case slot      => exact h.slot hg
  case checked   => exact h.checked hg
  case verified  => exact h.verified hg
  case delivered => exact h.delivered hg
  case leaving   => exact h.leaving

theorem Invariant.update {change : Entry → Option Entry} (h : w.Invariant)
    (hc : ∀ e e', change e = some e' → e.Eased e') : (w.update id change).Invariant := by
  unfold World.update
  cases hb : (w.document.entries.lookup id).bind change
  case none => exact h
  case some e' =>
    obtain ⟨e, hl, he⟩ := Option.bind_eq_some_iff.mp hb
    exact h.of_all (h.consistent.set ((h.consistent.sound id e hl).eased (hc e e' he))) rfl fun t =>
      .of_eased hl (hc e e' he)

-- A new identifier is drawn, and all that is about the others stays.
theorem Invariant.draw (h : w.Invariant) : ({ w with next := w.next + 1 } : World).Invariant :=
  h.of_all (h.consistent.same rfl (Nat.le_succ _) rfl rfl rfl) rfl fun _ =>
    .of_same rfl (fun hh => hh) (Nat.le_succ _) (List.Subset.refl _) (List.Subset.refl _)

theorem Invariant.create {schedule : Schedule} (h : w.Invariant) :
    ({ w with document := w.document.set w.next schedule.new, next := w.next + 1 } : World).Invariant := by
  refine h.of_all h.consistent.create rfl fun t =>
    ⟨Nat.le_succ _, List.Subset.refl _, List.Subset.refl _, fun hh => hh, fun _ j f hj hf => ⟨f, ?_, ?_⟩⟩
  case refine_1 => rwa [Document.set, AList.lookup_insert_ne hj.ne] at hf
  case refine_2 => exact ⟨rfl, .inr (.inl ⟨rfl, rfl⟩)⟩

theorem Invariant.renew (h : w.Invariant) (hh : w.Held token) :
    ({ w with document := w.document.hold token clock } : World).Invariant := by
  refine h.of_all (h.consistent.same rfl le_rfl rfl rfl rfl) rfl fun t =>
    .of_same rfl (fun ht => ?_) le_rfl (List.Subset.refl _) (List.Subset.refl _)
  exact hh.trans ht

theorem Invariant.look (h : w.Invariant) :
    ({ w.move w.next now .looked with next := w.next + 1 } : World).Invariant :=
  Invariant.draw (w := w.move w.next now .looked) (h.move (.left (.inl rfl)))

theorem Invariant.start : World.start.Invariant :=
  ⟨.start, fun _ _ h => absurd h (by simp [World.start])⟩

end World

open World in
theorem invariant_step {nextDue : NextDue} {w : World} {event : Event} (h : w.Invariant) :
    (step nextDue w event).Invariant := by
  cases event
  case create             => exact h.create
  case start              => exact h.update fun _ _ => Entry.eased_start
  case stop               => exact h.update fun _ _ he => Option.some.inj he ▸ Entry.eased_stop
  case cancel             => exact h.update fun _ _ he => Option.some.inj he ▸ Entry.eased_cancel
  case retire             =>
    exact h.of_all (h.consistent.same rfl le_rfl rfl rfl rfl) rfl fun _ =>
      .of_same rfl (fun hh => hh) le_rfl (List.Subset.refl _) (List.Subset.refl _)
  case connect            => exact h.draw.update fun _ _ he => Option.some.inj he ▸ Entry.eased_connect
  case disconnect         => exact h.update fun _ _ he => Option.some.inj he ▸ Entry.eased_disconnect
  case look now           =>
    unfold step
    dsimp only
    split_ifs
    case pos => exact h.look
    case neg => exact h
  case proceed token clock ok =>
    unfold step
    cases hp : w.passes token
    case none      => simpa [hp] using h
    case some pass => simpa [hp] using h.proceed (h.passes token pass hp)
  case renew token clock  =>
    unfold step
    dsimp only
    split_ifs with hc
    case pos => exact h.renew (held_of_holds (Bool.and_eq_true_iff.mp hc).right)
    case neg => exact h
  case crash              => exact h.forget

theorem invariant_run {nextDue : NextDue} {w : World} {events : List Event} (h : w.Invariant) :
    (Run.run (step nextDue) w events).Invariant :=
  Run.invariant (fun _ _ => invariant_step) h

-- Whatever clients and passes do and wherever passes stop: a timer or a stopwatch is claimed once at most and nothing is
-- claimed before it is due; what is delivered is a slot of a claimed occurrence; and an occurrence is finished once at
-- most, after all of its slots have been delivered.
theorem occurrences_settle (nextDue : NextDue) (events : List Event) :
    let w := Run.run (step nextDue) World.start events
    ((w.claims.filter fun c => c.kind.once).map fun c => c.entry).Nodup ∧
    (∀ c ∈ w.claims, c.pending.scheduledAt ≤ c.pending.firedAt) ∧
    (∀ d ∈ w.deliveries, ∃ c ∈ w.claims, c.pending.id = d.1 ∧ ∃ s ∈ c.pending.slots, s.id = d.2) ∧
    (w.finished.map fun x => x.2.id).Nodup ∧
    ∀ x ∈ w.finished, w.Settled x := by
  have h : (Run.run (step nextDue) World.start events).Consistent := (invariant_run .start).consistent
  exact ⟨h.once, h.punctual, h.meant, h.distinct, h.settled⟩

end Scheduler
