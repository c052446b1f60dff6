import Agentihooks.Scheduler.Theorems.Core

namespace Scheduler

section Closed

variable {w w' : World} {id j token : ℕ} {e : Entry} {nextDue : NextDue} {now clock : Time}

namespace World

-- An entry that is closed, or that has been removed.
def Over (w : World) (id : ℕ) : Prop :=
  id < w.next ∧ ∀ e, w.document.entries.lookup id = some e → e.Closed

structure Spared (w w' : World) (id : ℕ) : Prop where
  closed   : w'.Over id
  claims   : (w'.claims.filter fun c => c.entry = id) = w.claims.filter fun c => c.entry = id
  finished : (w'.finished.filter fun x => x.1 = id) = w.finished.filter fun x => x.1 = id

theorem Over.spared (h : w.Over id) (hn : w.next ≤ w'.next)
    (he : ∀ e, w'.document.entries.lookup id = some e → w.document.entries.lookup id = some e ∨ e.Closed)
    (hc : w'.claims = w.claims) (hf : w'.finished = w.finished) : w.Spared w' id :=
  ⟨⟨h.left.trans_le hn, fun e hl => (he e hl).elim (h.right e) fun hc => hc⟩, by rw [hc], by rw [hf]⟩

theorem Over.same (h : w.Over id) (hn : w.next ≤ w'.next) (he : w'.document.entries = w.document.entries)
    (hc : w'.claims = w.claims) (hf : w'.finished = w.finished) : w.Spared w' id :=
  h.spared hn (fun _ hl => .inl (he ▸ hl)) hc hf

theorem Spared.trans {w₀ : World} (h : w₀.Spared w id) (h' : w.Spared w' id) : w₀.Spared w' id :=
  ⟨h'.closed, h'.claims.trans h.claims, h'.finished.trans h.finished⟩

theorem lookup_set_closed (hj : j = id → e.Closed) {f : Entry}
    (hf : (w.document.set j e).entries.lookup id = some f) : w.document.entries.lookup id = some f ∨ f.Closed := by
  by_cases hi : id = j
  case pos =>
    subst hi
    rw [Document.set, AList.lookup_insert] at hf
    cases hf
    exact .inr (hj rfl)
  case neg =>
    rw [Document.set, AList.lookup_insert_ne hi] at hf
    exact .inl hf

theorem Over.claimEntry (h : w.Over id) : w.Spared (w.claimEntry now j) id := by
  unfold World.claimEntry
  cases hl : w.document.entries.lookup j
  case none => exact h.same le_rfl rfl rfl rfl
  case some e =>
    dsimp only
    split_ifs with hd
    case neg => exact h.same le_rfl rfl rfl rfl
    have hj : j ≠ id := fun hj => (h.right e (hj ▸ hl)).ne_active hd.left
    refine ⟨⟨h.left.trans (Nat.lt_succ_self _), fun f hf => ?_⟩, ?_, rfl⟩
    case refine_1 => exact (lookup_set_closed (fun he => absurd he hj) hf).elim (h.right f) fun hc => hc
    case refine_2 => simp [hj]

theorem Over.claim (h : w.Over id) : w.Spared (w.claim now) id := by
  unfold World.claim
  generalize w.document.entries.keys = keys
  induction keys generalizing w
  case nil         => exact h.same le_rfl rfl rfl rfl
  case cons j _ hi => exact h.claimEntry.trans (hi h.claimEntry.closed)

theorem Over.under {change : World → World} (h : w.Over id) (hc : w.Spared (change w) id) :
    w.Spared (w.under token now clock change) id := by
  unfold World.under
  split_ifs
  case pos => exact hc.trans (hc.closed.same le_rfl rfl rfl rfl)
  case neg => exact h.same le_rfl rfl rfl rfl

-- The finish of an entry that is closed finishes nothing.
theorem Over.finish (h : w.Over id) (hw : w.Consistent) (hl : w.document.entries.lookup j = some e) :
    w.Spared { w with
      document := w.document.set j (e.finish nextDue now)
      finished := w.finished ++ (e.pending.map fun p => (j, p)).toList } id := by
  by_cases hj : j = id
  case pos =>
    have hc := h.right e (hj ▸ hl)
    have hp := (hw.sound j e hl).whole.pending_of_ne hc.ne_pending
    refine h.spared le_rfl (fun f hf => ?_) rfl (by simp [hp])
    exact lookup_set_closed (fun _ => (Entry.finish_of_ne hc.ne_pending).symm ▸ hc) hf
  case neg =>
    refine ⟨⟨h.left, fun f hf => ?_⟩, rfl, ?_⟩
    case refine_1 => exact (lookup_set_closed (fun he => absurd he hj) hf).elim (h.right f) fun hc => hc
    case refine_2 => cases e.pending <;> simp [hj]

theorem Over.slot {job : Job} {ok : Bool} (h : w.Over id) (hw : w.Consistent) :
    w.Spared (w.proceed nextDue token clock ok now (.slot job)) id := by
  rw [World.proceed]
  cases job.rest
  case nil =>
    dsimp only
    split_ifs
    case pos => exact h.same le_rfl rfl rfl rfl
    cases hl : w.document.entries.lookup job.entry
    case none   => exact h.same le_rfl rfl rfl rfl
    case some e => exact h.under ((h.finish hw hl).trans ((h.finish hw hl).closed.same le_rfl rfl rfl rfl))
  case cons =>
    dsimp only
    cases w.document.entries.lookup job.entry <;> exact h.same le_rfl rfl rfl rfl

theorem Over.proceed {position : Position} {ok : Bool} (h : w.Over id) (hw : w.Consistent) :
    w.Spared (w.proceed nextDue token clock ok now position) id := by
  cases position
  case looked =>
    rw [World.proceed]
    split_ifs <;> exact h.same le_rfl rfl rfl rfl
  case acquired =>
    rw [World.proceed]
    exact h.under (h.claim.trans (h.claim.closed.same le_rfl rfl rfl rfl))
  case claimed  => exact h.same le_rfl rfl rfl rfl
  case listing todo =>
    cases todo
    case nil =>
      rw [World.proceed]
      exact h.under (h.spared le_rfl (fun _ hf => .inl (KeyTable.lookup_filter.mp hf).left) rfl rfl)
    case cons j todo =>
      rw [World.proceed]
      cases w.document.entries.lookup j
      case none   => exact h.same le_rfl rfl rfl rfl
      case some e => cases hp : e.pending <;> simp only [hp] <;> exact h.same le_rfl rfl rfl rfl
  case marking j todo =>
    rw [World.proceed]
    cases w.document.entries.lookup j
    case none   => exact h.same le_rfl rfl rfl rfl
    case some e =>
      exact h.under (h.spared le_rfl (fun _ hf => lookup_set_closed (fun _ => .inr (.inr rfl)) hf) rfl rfl)
  case slot job => exact h.slot hw
  case checked job =>
    rw [World.proceed]
    split_ifs <;> exact h.same le_rfl rfl rfl rfl
  case verified job =>
    rw [World.proceed]
    split_ifs <;> exact h.same le_rfl rfl rfl rfl
  case delivered job =>
    rw [World.proceed]
    cases hl : w.document.entries.lookup job.entry
    case none   => exact h.same le_rfl rfl rfl rfl
    case some e =>
      cases job.rest.head?
      case none   => exact h.same le_rfl rfl rfl rfl
      case some c =>
        refine h.under (h.spared le_rfl (fun _ hf => lookup_set_closed (fun hj => ?_) hf) rfl rfl)
        rw [Entry.Closed, Entry.acknowledge_state]
        exact h.right e (hj ▸ hl)
  case leaving => exact h.same le_rfl rfl rfl rfl

theorem Over.update {change : Entry → Option Entry} (h : w.Over id)
    (hc : ∀ e e', change e = some e' → e.Eased e') : w.Spared (w.update j change) id := by
  unfold World.update
  cases hb : (w.document.entries.lookup j).bind change
  case none => exact h.same le_rfl rfl rfl rfl
  case some e' =>
    obtain ⟨e, hl, he⟩ := Option.bind_eq_some_iff.mp hb
    refine h.spared le_rfl (fun _ hf => lookup_set_closed (fun hj => ?_) hf) rfl rfl
    exact (hc e e' he).closed (h.right e (hj ▸ hl))

end World

open World in
theorem over_step {event : Event} (h : w.Over id) (hw : w.Consistent) : w.Spared (step nextDue w event) id := by
  cases event
  case create =>
    refine h.spared (Nat.le_succ _) (fun f hf => lookup_set_closed (fun hj => absurd h.left ?_) hf) rfl rfl
    exact hj ▸ Nat.lt_irrefl _
  case start              => exact h.update fun _ _ => Entry.eased_start
  case stop               => exact h.update fun _ _ he => Option.some.inj he ▸ Entry.eased_stop
  case cancel             => exact h.update fun _ _ he => Option.some.inj he ▸ Entry.eased_cancel
  case retire             => exact h.same le_rfl rfl rfl rfl
  case connect            =>
    have hd : w.Spared { w with next := w.next + 1 } id := h.same (Nat.le_succ _) rfl rfl rfl
    exact hd.trans (hd.closed.update fun _ _ he => Option.some.inj he ▸ Entry.eased_connect)
  case disconnect         => exact h.update fun _ _ he => Option.some.inj he ▸ Entry.eased_disconnect
  case look               =>
    unfold step
    dsimp only
    split_ifs
    case pos => exact h.same (Nat.le_succ _) rfl rfl rfl
    case neg => exact h.same le_rfl rfl rfl rfl
  case proceed token clock ok =>
    unfold step
    cases hp : w.passes token
    case none      => simpa [hp] using h.same le_rfl rfl rfl rfl
    case some pass => simpa [hp] using h.proceed hw
  case renew              =>
    unfold step
    dsimp only
    split_ifs <;> exact h.same le_rfl rfl rfl rfl
  case crash              => exact h.same le_rfl rfl rfl rfl

-- An entry that is closed stays closed until it is removed for good, and nothing of it is claimed or finished any more.
theorem closed_forever {nextDue : NextDue} {events more : List Event} {id : ℕ} {e : Entry}
    (hl : (Run.run (step nextDue) World.start events).document.entries.lookup id = some e) (hc : e.Closed) :
    let w := Run.run (step nextDue) World.start events
    let w' := Run.run (step nextDue) w more
    (∀ e', w'.document.entries.lookup id = some e' → e'.Closed) ∧
    ((w'.claims.filter fun c => c.entry = id) = w.claims.filter fun c => c.entry = id) ∧
    (w'.finished.filter fun x => x.1 = id) = w.finished.filter fun x => x.1 = id := by
  have h : (Run.run (step nextDue) World.start events).Invariant := invariant_run .start
  revert hl h
  generalize Run.run (step nextDue) World.start events = w
  intro hl h
  have ho : w.Over id := ⟨(h.consistent.sound id e hl).fresh, fun f hf => Option.some.inj (hl.symm.trans hf) ▸ hc⟩
  have hr : w.Spared (Run.run (step nextDue) w more) id ∧ (Run.run (step nextDue) w more).Invariant := by
    refine Run.invariant (I := fun w' => w.Spared w' id ∧ w'.Invariant) ?_ ⟨ho.same le_rfl rfl rfl rfl, h⟩
    exact fun _ _ hi => ⟨hi.left.trans (over_step hi.left.closed hi.right.consistent), invariant_step hi.right⟩
  obtain ⟨⟨ho', hc', hf'⟩, -⟩ := hr
  exact ⟨ho'.right, hc', hf'⟩

-- A timer that is cancelled at the time that it is due, while a pass has it on its list.
theorem closed_forever_cancelled :
    let events : List Event := [.create ⟨.timer, "agent", 5, some 5, "", fun h => Kind.noConfusion h⟩, .start 0 0,
      .look 5, .proceed 1 5 true, .proceed 1 5 true, .proceed 1 5 true, .cancel 0]
    let w := Run.run (step fun _ now => now + 60) World.start events
    let w' := Run.run (step fun _ now => now + 60) w [.proceed 1 6 true, .proceed 1 6 true, .start 0 7]
    (∀ e', w'.document.entries.lookup 0 = some e' → e'.Closed) ∧
    ((w'.claims.filter fun c => c.entry = 0) = w.claims.filter fun c => c.entry = 0) ∧
    (w'.finished.filter fun x => x.1 = 0) = w.finished.filter fun x => x.1 = 0 :=
  closed_forever
    (e := ⟨⟨.timer, "agent", 5, some 5, "", fun h => Kind.noConfusion h⟩, .cancelled, some 0, none, .timeout, [], none⟩)
    rfl (.inr (.inl rfl))

end Closed

section Fencing

variable {w w' : World} {token : ℕ} {nextDue : NextDue} {now clock : Time}

namespace World

-- The holders of the lease in the order in which they have acquired it, and their writes: nobody writes after another
-- has acquired.
structure Fenced (w : World) : Prop where
  nodup   : w.holders.Nodup
  drawn   : ∀ t ∈ w.holders, t < w.next
  passes  : ∀ t pass, w.passes t = some pass → t < w.next ∧ (pass.position = .looked → t ∉ w.holders)
  last    : ∀ t, w.Held t → w.holders.getLast? = some t
  writers : ∀ t ∈ w.writes, t ∈ w.holders
  ordered : w.writes.Pairwise fun a b => w.holders.idxOf a ≤ w.holders.idxOf b

-- Nothing of the lease changes, and a pass that has looked before has not begun again.
theorem Fenced.same (h : w.Fenced) (hn : w.next ≤ w'.next) (hh : w'.holders = w.holders) (hw : w'.writes = w.writes)
    (hl : ∀ t, w'.Held t → w.Held t)
    (hp : ∀ t pass, w'.passes t = some pass → t < w'.next ∧ (pass.position = .looked → t ∉ w.holders)) : w'.Fenced where
  nodup       := hh ▸ h.nodup
  drawn t hm  := (h.drawn t (hh ▸ hm)).trans_le hn
  passes t pass ht := hh ▸ hp t pass ht
  last t ht   := hh ▸ h.last t (hl t ht)
  writers     := hh ▸ hw ▸ h.writers
  ordered     := hh ▸ hw ▸ h.ordered

-- The entries and what is drawn may change freely.
theorem Fenced.quiet (h : w.Fenced) (hn : w.next ≤ w'.next) (hp : w'.passes = w.passes) (hh : w'.holders = w.holders)
    (hw : w'.writes = w.writes) (hl : w'.document.lease = w.document.lease) : w'.Fenced :=
  h.same hn hh hw (fun _ ht => (congrArg (Option.map Lease.token) hl).symm.trans ht) fun t pass ht =>
    (h.passes t pass (hp ▸ ht)).imp_left hn.trans_lt'

theorem Fenced.move {position : Position} (h : w.Fenced) (ht : token < w.next) (hp : position ≠ .looked) :
    (w.move token now position).Fenced := by
  refine h.same le_rfl rfl rfl (fun _ hh => hh) fun t pass hm => ?_
  by_cases he : t = token
  case pos =>
    subst he
    cases passes_move_self.symm.trans hm
    exact ⟨ht, fun hc => absurd hc hp⟩
  case neg => exact h.passes t pass ((passes_move_ne he).symm.trans hm)

theorem Fenced.forget (h : w.Fenced) : ({ w with passes := Function.update w.passes token none } : World).Fenced := by
  refine h.same le_rfl rfl rfl (fun _ hh => hh) fun t pass hm => ?_
  by_cases he : t = token
  case pos => simp [he] at hm
  case neg => exact h.passes t pass (by simpa [he] using hm)

theorem idxOf_le_last {l : List ℕ} {a t : ℕ} (hn : l.Nodup) (ht : l.getLast? = some t) (ha : a ∈ l) :
    l.idxOf a ≤ l.idxOf t := by
  obtain ⟨ys, rfl⟩ := List.getLast?_eq_some_iff.mp ht
  have hy : t ∉ ys := by
    intro hm
    exact (List.nodup_append.mp hn).right.right t hm t List.mem_cons_self rfl
  have hl := List.idxOf_lt_length_of_mem ha
  rw [List.length_append, List.length_singleton] at hl
  rw [List.idxOf_append, List.idxOf_append, if_neg hy]
  rw [List.idxOf_append] at hl
  simp only [List.idxOf_cons_self]
  omega

theorem Fenced.under {change : World → World} (h : w.Fenced) (ht : token < w.next)
    (hc : (change w).Fenced) (hl : (change w).document.lease = w.document.lease) (hw : (change w).writes = w.writes) :
    (w.under token now clock change).Fenced := by
  unfold World.under
  split_ifs with hh
  case neg => exact h.move ht (by simp)
  have hl : (change w).Held token := (congrArg (Option.map Lease.token) hl).trans (held_of_holds hh)
  have hm : token ∈ (change w).holders := List.mem_of_getLast? (hc.last token hl)
  refine ⟨hc.nodup, hc.drawn, hc.passes, hc.last, fun t hs => ?_, ?_⟩
  case refine_1 => exact (List.mem_append.mp hs).elim (fun hs => hc.writers t (hw ▸ hs)) fun hs => List.mem_singleton.mp hs ▸ hm
  case refine_2 =>
    refine List.pairwise_append.mpr ⟨hw ▸ hc.ordered, List.pairwise_singleton _ _, fun a ha b hb => ?_⟩
    cases List.mem_singleton.mp hb
    exact idxOf_le_last hc.nodup (hc.last token hl) (hc.writers a (hw ▸ ha))

-- A pass acquires once, right after its look.
theorem Fenced.acquire (h : w.Fenced) (ht : token < w.next) (hm : token ∉ w.holders) :
    ({ w.move token now .acquired with
      document := w.document.hold token clock
      holders  := w.holders ++ [token] } : World).Fenced where
  nodup := List.nodup_append.mpr
    ⟨h.nodup, List.nodup_singleton _, fun a ha b hb => ne_of_mem_of_not_mem ha (List.mem_singleton.mp hb ▸ hm)⟩
  drawn t hs := (List.mem_append.mp hs).elim (h.drawn t) fun hs => List.mem_singleton.mp hs ▸ ht
  passes t pass hp := by
    have hw : (w.move token now .acquired).Fenced := h.move ht (by simp)
    obtain ⟨hd, hl⟩ := hw.passes t pass hp
    refine ⟨hd, fun hk hs => ?_⟩
    obtain hs | hs := List.mem_append.mp hs
    case inl => exact hl hk hs
    case inr =>
      cases List.mem_singleton.mp hs
      cases passes_move_self.symm.trans hp
      cases hk
  last t hh := by
    cases Option.some.inj hh
    exact List.getLast?_concat
  writers t hs := List.mem_append_left _ (h.writers t hs)
  ordered := by
    refine h.ordered.imp_of_mem fun ha hb hle => ?_
    rwa [List.idxOf_append_of_mem (h.writers _ ha), List.idxOf_append_of_mem (h.writers _ hb)]

theorem Fenced.release (h : w.Fenced) : ({ w with document := w.document.release token } : World).Fenced := by
  refine h.same le_rfl rfl rfl (fun t hh => ?_) h.passes
  obtain ⟨held, hl, ht⟩ := Option.map_eq_some_iff.mp hh
  exact Option.map_eq_some_iff.mpr ⟨held, (Option.filter_eq_some_iff.mp hl).left, ht⟩

theorem Fenced.slot {job : Job} {ok : Bool} (h : w.Fenced) (ht : token < w.next) :
    (w.proceed nextDue token clock ok now (.slot job)).Fenced := by
  rw [World.proceed]
  cases job.rest
  case nil =>
    dsimp only
    split_ifs
    case pos => exact h.move ht (by simp)
    cases w.document.entries.lookup job.entry
    case none   => exact h.move ht (by simp)
    case some e =>
      refine h.under ht ?_ rfl rfl
      exact (h.move ht (by simp)).quiet le_rfl rfl rfl rfl rfl
  case cons =>
    dsimp only
    cases w.document.entries.lookup job.entry
    case none   => exact h.move ht (by simp)
    case some e => exact h.move ht (by split_ifs <;> simp)

theorem Fenced.proceed {position : Position} {ok : Bool} (h : w.Fenced) (hp : w.passes token = some ⟨now, position⟩) :
    (w.proceed nextDue token clock ok now position).Fenced := by
  obtain ⟨ht, hm⟩ := h.passes token _ hp
  cases position
  case looked =>
    rw [World.proceed]
    split_ifs
    case pos => exact h.forget
    case neg => exact h.acquire ht (hm rfl)
  case acquired =>
    rw [World.proceed]
    have hf : w.Claimed (w.claim now) := claimed_claim
    refine h.under ht ?_ hf.lease hf.writes
    exact (h.quiet hf.next hf.passes hf.holders hf.writes hf.lease).move (ht.trans_le hf.next) (by simp)
  case claimed => exact h.move ht (by simp)
  case listing todo =>
    cases todo
    case nil =>
      rw [World.proceed]
      exact h.under ht ((h.move ht (by simp)).quiet le_rfl rfl rfl rfl rfl) rfl rfl
    case cons j todo =>
      rw [World.proceed]
      cases w.document.entries.lookup j
      case none   => exact h.move ht (by simp)
      case some e => cases hp : e.pending <;> simp only [hp] <;> exact h.move ht (by simp)
  case marking j todo =>
    rw [World.proceed]
    cases w.document.entries.lookup j
    case none   => exact h.move ht (by simp)
    case some e => exact h.under ht ((h.move ht (by simp)).quiet le_rfl rfl rfl rfl rfl) rfl rfl
  case slot job => exact h.slot ht
  case checked job =>
    rw [World.proceed]
    split_ifs <;> exact h.move ht (by simp)
  case verified job =>
    rw [World.proceed]
    split_ifs
    case pos => exact (h.move ht (by simp)).quiet le_rfl rfl rfl rfl rfl
    case neg => exact h.move ht (by simp)
  case delivered job =>
    rw [World.proceed]
    cases w.document.entries.lookup job.entry
    case none   => exact h.move ht (by simp)
    case some e =>
      cases job.rest.head?
      case none   => exact h.move ht (by simp)
      case some c => exact h.under ht ((h.move ht (by simp)).quiet le_rfl rfl rfl rfl rfl) rfl rfl
  case leaving => exact h.release.forget

theorem Fenced.update {id : ℕ} {change : Entry → Option Entry} (h : w.Fenced) : (w.update id change).Fenced := by
  unfold World.update
  cases (w.document.entries.lookup id).bind change
  case none   => exact h
  case some e => exact h.quiet le_rfl rfl rfl rfl rfl

theorem Fenced.look (h : w.Fenced) : ({ w.move w.next now .looked with next := w.next + 1 } : World).Fenced := by
  refine h.same (Nat.le_succ _) rfl rfl (fun _ hh => hh) fun t pass hm => ?_
  by_cases he : t = w.next
  case pos => exact ⟨he ▸ Nat.lt_succ_self _, fun _ hc => (h.drawn _ hc).ne he⟩
  case neg => exact (h.passes t pass ((passes_move_ne he).symm.trans hm)).imp_left Nat.lt_succ_of_lt

theorem Fenced.start : World.start.Fenced :=
  ⟨.nil, by simp [World.start], by simp [World.start], by simp [World.start, Held], by simp [World.start], .nil⟩

end World

end Fencing

section Alone

variable {w w' w₀ : World} {token id j : ℕ} {e : Entry} {job : Job} {todo : List ℕ} {position : Position}
  {nextDue : NextDue} {now clock : Time}

def Entry.Due (now : Time) (e : Entry) : Prop :=
  e.state = .pending ∨ e.state = .active ∧ e.due ≤ now

namespace World

-- The steps of one pass alone, whose deliveries go through.
def Leads (nextDue : NextDue) (token : ℕ) (clock : Time) (w w' : World) : Prop :=
  ∃ n, Run.run (step nextDue) w (List.replicate n (.proceed token clock true)) = w'

theorem Leads.refl : w.Leads nextDue token clock w :=
  ⟨0, rfl⟩

theorem Leads.trans (h : w₀.Leads nextDue token clock w) (h' : w.Leads nextDue token clock w') :
    w₀.Leads nextDue token clock w' := by
  obtain ⟨n, rfl⟩ := h
  obtain ⟨m, rfl⟩ := h'
  exact ⟨n + m, by rw [List.replicate_add, Run.run_append]⟩

-- What a pass leaves of the document beside the entry that it delivers.
structure Beside (w w' : World) (id : ℕ) (e : Entry) : Prop where
  lease   : w'.document.lease = w.document.lease
  retired : w'.document.retired = w.document.retired
  lookup  : ∀ j, w'.document.entries.lookup j = if j = id then some e else w.document.entries.lookup j

theorem Beside.refl (h : w.document.entries.lookup id = some e) : w.Beside w id e where
  lease    := rfl
  retired  := rfl
  lookup j := by
    split_ifs with hj
    case pos => rw [hj, h]
    case neg => rfl

theorem Beside.trans {f : Entry} (h : w₀.Beside w id e) (h' : w.Beside w' id f) : w₀.Beside w' id f where
  lease    := h'.lease.trans h.lease
  retired  := h'.retired.trans h.retired
  lookup j := by
    rw [h'.lookup, h.lookup]
    split_ifs <;> rfl

theorem Beside.set : w.Beside { w with document := w.document.set id e } id e where
  lease    := rfl
  retired  := rfl
  lookup j := by
    split_ifs with hj
    case pos => rw [hj, Document.set, AList.lookup_insert]
    case neg => rw [Document.set, AList.lookup_insert_ne hj]

end World

end Alone

end Scheduler
