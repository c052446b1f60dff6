import Agentihooks.MergeQueue.Priority
import Mathlib.Data.List.Nodup

namespace MergeQueue

namespace World

def ids (world : World) : List String :=
  world.queue.map (·.pullRequest.id)

-- The queue holds pull requests of the host, each once.
structure Sound (github : GitHub) (world : World) : Prop where
  pulls : ∀ entry ∈ world.queue, entry.pullRequest ∈ github.pulls
  once : world.ids.Nodup

-- Two worlds that differ only in the number of calls made.
structure Alike (before after : World) : Prop where
  queue : after.queue = before.queue
  displaced : after.displaced = before.displaced
  sent : after.sent = before.sent

variable {fate : ℕ → Fate} {world before after : World} {id url : String} {pull : PullRequest}
variable {failed : Option String}

theorem Alike.refl : Alike world world :=
  ⟨rfl, rfl, rfl⟩

theorem Alike.trans {mid : World} (h₁ : Alike before mid) (h₂ : Alike mid after) :
    Alike before after :=
  ⟨h₂.queue.trans h₁.queue, h₂.displaced.trans h₁.displaced, h₂.sent.trans h₁.sent⟩

theorem Alike.ids (h : Alike before after) : after.ids = before.ids := by
  simp [World.ids, h.queue]

theorem mem_ids {entry : Entry} (h : entry ∈ world.queue) : entry.pullRequest.id ∈ world.ids :=
  List.mem_map_of_mem h

theorem mergeQueueEntry_none : world.mergeQueueEntry id = none ↔ id ∉ world.ids := by
  simp [mergeQueueEntry, ids]

theorem mergeQueueEntry_eq {entry : Entry} (hn : world.ids.Nodup) (h : entry ∈ world.queue) :
    world.mergeQueueEntry entry.pullRequest.id = some entry.state := by
  unfold mergeQueueEntry
  cases hf : world.queue.find? fun other => other.pullRequest.id = entry.pullRequest.id with
  | none =>
    have := List.find?_eq_none.mp hf entry h
    simp at this
  | some found =>
    have hi : found.pullRequest.id = entry.pullRequest.id := by simpa using List.find?_some hf
    have he : found = entry := List.inj_on_of_nodup_map hn (List.mem_of_find?_eq_some hf) h hi
    simp [he]

theorem ask_alike (h : world.ask fate = (after, failed)) : Alike world after := by
  cases h
  exact ⟨rfl, rfl, rfl⟩

theorem ask_answers (hf : ∀ n, fate n = .answers) (h : world.ask fate = (after, failed)) :
    failed = none := by
  cases h
  simp [hf, Fate.raised]

end World

section

open World

variable {Proof : Type} {checks : Checks Proof} {fate : ℕ → Fate} {github : GitHub}
variable {world before after : World} {pull target : PullRequest} {failed : Option String}

theorem require_alike {url head body : String}
    (h : require checks fate url head body before = (after, failed)) : Alike before after := by
  unfold require at h
  split at h
  · cases h
    exact .refl
  · cases h
    exact .refl
  · split at h
    case h_1 ha =>
      cases h
      exact ask_alike ha
    case h_2 ha =>
      cases h
      exact ask_alike ha

theorem require_answers {url head body : String} (hf : ∀ n, fate n = .answers)
    (h : require checks fate url head body before = (after, failed)) :
    failed = checks.refusal url head body := by
  unfold require at h
  unfold Checks.refusal
  split at h
  · cases h
    rfl
  · cases h
    rfl
  · split at h
    case h_1 ha =>
      have := ask_answers hf ha
      contradiction
    case h_2 ha =>
      cases h
      rfl

theorem requireGreen_alike {url head : String}
    (h : requireGreen checks fate url head before = (after, failed)) : Alike before after := by
  unfold requireGreen at h
  split at h
  case h_1 ha =>
    cases h
    exact ask_alike ha
  case h_2 ha =>
    cases h
    exact ask_alike ha

theorem admit_alike {url : String} {result : Except String PullRequest}
    (h : admitPull checks fate github url before = (after, result)) : Alike before after := by
  unfold admitPull at h
  split at h
  case h_1 ha =>
    cases h
    exact ask_alike ha
  case h_2 ha =>
    have hb := ask_alike ha
    split at h
    · cases h
      exact hb
    split at h
    · cases h
      exact hb
    split at h
    · cases h
      exact hb
    split at h
    · cases h
      exact hb
    split at h
    case h_1 hr =>
      cases h
      exact hb.trans (require_alike hr)
    case h_2 hr =>
      have hb := hb.trans (require_alike hr)
      split at h
      case h_1 hg =>
        cases h
        exact hb.trans (requireGreen_alike hg)
      case h_2 hg =>
        cases h
        exact hb.trans (requireGreen_alike hg)

theorem admit_resource {url : String}
    (h : admitPull checks fate github url before = (after, .ok pull)) : github.resource url = some pull := by
  unfold admitPull at h
  repeat' split at h
  all_goals first
    | cases h; assumption
    | cases h

theorem pages_flatten (fuel : ℕ) (entries : List Entry) : (pages fuel entries).flatten = entries := by
  induction fuel generalizing entries with
  | zero => simp [pages]
  | succ fuel ih =>
    rw [pages]
    split
    · simp
    · simp [ih]

-- Those that wait, of entries in queue order.
def others (target : String) (entries : List Entry) : List PullRequest :=
  (entries.filter fun entry => entry.pullRequest.id ≠ target ∧ entry.state = .queued).map (·.pullRequest)

theorem foldl_note (id : String) (entries : List Entry) (around : Around)
    (hm : around.behind ≠ [] → around.met) :
    let noted := entries.foldl (Around.note id) around
    (noted.behind ≠ [] → noted.met) ∧
      noted.ahead ++ noted.behind = around.ahead ++ around.behind ++ others id entries := by
  induction entries generalizing around with
  | nil => simpa [others] using hm
  | cons entry entries ih =>
    rw [List.foldl_cons]
    have hc : ((around.note id entry).behind ≠ [] → (around.note id entry).met) ∧
        (around.note id entry).ahead ++ (around.note id entry).behind =
          around.ahead ++ around.behind ++ others id [entry] := by
      unfold Around.note others
      by_cases hi : entry.pullRequest.id = id
      · simp [hi]
      · by_cases hq : entry.state = .queued
        · by_cases ht : around.met
          · simp [hi, hq, ht]
          · have hb : around.behind = [] := by
              by_contra hb
              exact ht (hm hb)
            simp [hi, hq, ht, hb]
        · simpa [hi, hq] using hm
    obtain ⟨h₁, h₂⟩ := ih _ hc.1
    refine ⟨h₁, ?_⟩
    rw [h₂, hc.2]
    simp [others, List.filter_cons]
    split <;> simp_all

theorem readPages_spec {id : String} {around : Around} {result : Except String Around}
    {paged : List (List Entry)} (h : readPages fate id paged around before = (after, result)) :
    Alike before after ∧
      ∀ found, result = .ok found → found = paged.flatten.foldl (Around.note id) around := by
  induction paged generalizing around before with
  | nil =>
    cases h
    exact ⟨.refl, fun found hf => by simpa using hf.symm⟩
  | cons page paged ih =>
    unfold readPages at h
    split at h
    case h_1 ha =>
      cases h
      exact ⟨ask_alike ha, fun found hf => by cases hf⟩
    case h_2 ha =>
      obtain ⟨h₁, h₂⟩ := ih h
      refine ⟨(ask_alike ha).trans h₁, fun found hf => ?_⟩
      rw [h₂ found hf, List.flatten_cons, List.foldl_append]

theorem waitingAround_spec {id : String} {result : Except String Around}
    (h : waitingAround fate id before = (after, result)) :
    Alike before after ∧
      ∀ found, result = .ok found → found.ahead ++ found.behind = others id before.queue := by
  obtain ⟨h₁, h₂⟩ := readPages_spec h
  refine ⟨h₁, fun found hf => ?_⟩
  have := (foldl_note id (pages before.queue.length before.queue).flatten ⟨[], [], false⟩
    (by simp)).2
  rw [h₂ found hf, this, pages_flatten]
  simp

theorem foldl_add (pulls : List PullRequest) (world : World) :
    (pulls.foldl World.add world).queue = world.queue ∧
      (pulls.foldl World.add world).sent = world.sent := by
  induction pulls generalizing world with
  | nil => exact ⟨rfl, rfl⟩
  | cons pull pulls ih => exact ih _

theorem foldl_add_other {url : String} {pulls : List PullRequest} (h : url ∉ pulls.map (·.url)) :
    (pulls.foldl World.add world).displaced url = world.displaced url := by
  induction pulls generalizing world with
  | nil => rfl
  | cons pull pulls ih =>
    simp only [List.map_cons, List.mem_cons, not_or] at h
    rw [List.foldl_cons, ih h.2]
    simp [World.add, h.1]

theorem foldl_add_mem {pulls : List PullRequest} (hn : (pulls.map (·.url)).Nodup)
    (h : pull ∈ pulls) : ∃ n, (pulls.foldl World.add world).displaced pull.url = some (pull, n) := by
  induction pulls generalizing world with
  | nil => cases h
  | cons first pulls ih =>
    rw [List.map_cons, List.nodup_cons] at hn
    cases List.mem_cons.mp h with
    | inl he =>
      subst he
      exact ⟨world.order + 1, by rw [List.foldl_cons, foldl_add_other hn.1]; simp [World.add]⟩
    | inr hm => exact ih hn.2 hm

-- What `displace` did to the queue: it took out those at the back, all it removed but perhaps the last, whose
-- call raised without effect.
structure Dequeued (fate : ℕ → Fate) (pulls removed taken : List PullRequest) (failed : Option String)
    (before after : World) : Prop where
  front : removed <+: pulls
  spared : taken = removed ∨ ∃ pull, removed = taken ++ [pull]
  displaced : after.displaced = before.displaced
  queue : after.queue = before.queue.filter (·.pullRequest.id ∉ taken.map (·.id))
  dequeued : ∀ id, .dequeue id true ∈ after.sent ↔ .dequeue id true ∈ before.sent ∨ id ∈ taken.map (·.id)
  queued : ∀ id took, .queue id took ∈ after.sent ↔ .queue id took ∈ before.sent
  done : failed = none → removed = pulls ∧ taken = pulls
  answers : (∀ n, fate n = .answers) → failed = none

theorem Dequeued.start (hf : failed = none → pulls = []) (hg : (∀ n, fate n = .answers) → failed = none)
    (h : Alike before after) : Dequeued fate pulls [] [] failed before after where
  front := List.nil_prefix
  spared := .inl rfl
  displaced := h.displaced
  queue := by simp [h.queue]
  dequeued := by simp [h.sent]
  queued := by simp [h.sent]
  done hd := by simp [hf hd]
  answers := hg

-- The effect of one `DEQUEUE` call.
structure Dequeues (fate : ℕ → Fate) (id : String) (took : Bool) (failed : Option String)
    (before after : World) : Prop where
  queue : after.queue = if took then before.queue.filter (·.pullRequest.id ≠ id) else before.queue
  displaced : after.displaced = before.displaced
  sent : after.sent = before.sent ++ [.dequeue id took]
  took : failed = none → took = true
  answers : (∀ n, fate n = .answers) → failed = none

theorem dequeue_spec {id : String} (h : before.dequeue fate id = (after, failed)) :
    ∃ took, Dequeues fate id took failed before after := by
  cases h
  refine ⟨_, rfl, rfl, rfl, fun hf => ?_, fun hf => by simp [hf, Fate.raised]⟩
  cases ht : fate before.calls with
  | answers => rfl
  | raises effect message => simp [ht, Fate.raised] at hf

theorem Dequeues.other {id other : String} {took : Bool} (h : Dequeues fate id took failed before after)
    (hi : other ≠ id) : after.mergeQueueEntry other = before.mergeQueueEntry other := by
  unfold mergeQueueEntry
  cases took with
  | false => simp [h.queue]
  | true =>
    simp only [h.queue, if_true, List.find?_filter]
    congr 2
    funext entry
    by_cases he : entry.pullRequest.id = other
    · simp [he, hi]
    · simp [he]

theorem Dequeues.since {mid : World} {id : String} {took : Bool}
    (h : Dequeues fate id took failed mid after) (ha : Alike before mid) :
    Dequeues fate id took failed before after :=
  ⟨ha.queue ▸ h.queue, ha.displaced ▸ h.displaced, ha.sent ▸ h.sent, h.took, h.answers⟩

-- The last call of the loop raised.
theorem Dequeues.last {took : Bool} {message : String} {pulls : List PullRequest}
    (h : Dequeues fate pull.id took (some message) before after) :
    Dequeued fate (pull :: pulls) [pull] (if took then [pull] else []) (some message) before after where
  front := ⟨pulls, rfl⟩
  spared := by
    cases took with
    | false => exact .inr ⟨pull, rfl⟩
    | true => exact .inl rfl
  displaced := h.displaced
  queue := by
    cases took with
    | false => simp [h.queue]
    | true => simp [h.queue]
  dequeued id := by
    cases took with
    | false => simp [h.sent]
    | true => simp [h.sent]
  queued := by simp [h.sent]
  done hf := by cases hf
  answers := h.answers

theorem Dequeued.cons {pulls gone taken : List PullRequest} {mid : World} {done : Option String}
    (h : Dequeues fate pull.id true done before mid) (hd : Dequeued fate pulls gone taken failed mid after) :
    Dequeued fate (pull :: pulls) (pull :: gone) (pull :: taken) failed before after where
  front := by simpa using hd.front
  spared := by
    cases hd.spared with
    | inl he => exact .inl (by rw [he])
    | inr he =>
      obtain ⟨last, he⟩ := he
      exact .inr ⟨last, by rw [he, List.cons_append]⟩
  displaced := hd.displaced.trans h.displaced
  queue := by
    rw [hd.queue, h.queue, if_pos rfl, List.filter_filter]
    refine List.filter_congr fun entry _ => ?_
    by_cases he : entry.pullRequest.id = pull.id
    · simp [he]
    · simp [he]
  dequeued id := by
    rw [hd.dequeued, h.sent]
    simp [or_assoc]
  queued id took := by
    rw [hd.queued, h.sent]
    simp
  done hf := by simp [hd.done hf]
  answers := hd.answers

theorem dequeues_spec {pulls removed found : List PullRequest}
    (hq : ∀ pull ∈ pulls, before.mergeQueueEntry pull.id = some .queued)
    (hn : (pulls.map (·.id)).Nodup)
    (h : dequeues fate pulls before removed = (after, found, failed)) :
    ∃ gone taken, found = removed ++ gone ∧ Dequeued fate pulls gone taken failed before after := by
  induction pulls generalizing before removed with
  | nil =>
    cases h
    exact ⟨[], [], by simp, .start (fun _ => rfl) (fun _ => rfl) .refl⟩
  | cons pull pulls ih =>
    rw [List.map_cons, List.nodup_cons] at hn
    unfold dequeues at h
    split at h
    case h_1 ha =>
      cases h
      exact ⟨[], [], by simp, .start (fun hd => by cases hd) (fun hf => ask_answers hf ha)
        (ask_alike ha)⟩
    case h_2 asked ha =>
      have hb := ask_alike ha
      have hs : ∀ id, asked.mergeQueueEntry id = before.mergeQueueEntry id := by
        intro id
        rw [mergeQueueEntry, mergeQueueEntry, hb.queue]
      rw [if_pos ((hs _).trans (hq pull List.mem_cons_self))] at h
      split at h
      case h_1 message hd =>
        cases h
        obtain ⟨took, hd⟩ := dequeue_spec hd
        exact ⟨[pull], _, rfl, (hd.since hb).last⟩
      case h_2 mid hd =>
        obtain ⟨took, hd⟩ := dequeue_spec hd
        cases hd.took rfl
        have hd := hd.since hb
        have hq : ∀ other ∈ pulls, mid.mergeQueueEntry other.id = some .queued := by
          intro other ho
          have hi : other.id ≠ pull.id := fun hi => hn.1 (hi ▸ List.mem_map_of_mem ho)
          rw [hd.other hi]
          exact hq other (List.mem_cons_of_mem _ ho)
        obtain ⟨gone, taken, hf, hr⟩ := ih hq hn.2 h
        exact ⟨pull :: gone, pull :: taken, by simp [hf], .cons hd hr⟩

-- The effect of one `QUEUE` call.
structure Enqueues (fate : ℕ → Fate) (pull : PullRequest) (took : Bool) (failed : Option String)
    (before after : World) : Prop where
  queue : after.queue = before.queue ++ if took then [⟨.queued, pull⟩] else []
  displaced : after.displaced = before.displaced
  sent : after.sent = before.sent ++ [.queue pull.id took]
  took : failed = none → took = true
  answers : (∀ n, fate n = .answers) → failed = none

theorem enqueue_spec (h : before.enqueue fate pull = (after, failed)) :
    ∃ took, Enqueues fate pull took failed before after := by
  cases h
  refine ⟨(fate before.calls).took, ?_, rfl, rfl, fun hf => ?_, fun hf => by simp [hf, Fate.raised]⟩
  · cases (fate before.calls).took with
    | false => simp
    | true => simp
  · cases ht : fate before.calls with
    | answers => rfl
    | raises effect message => simp [ht, Fate.raised] at hf

theorem Enqueues.since {mid : World} {took : Bool} (h : Enqueues fate pull took failed mid after)
    (ha : Alike before mid) : Enqueues fate pull took failed before after :=
  ⟨ha.queue ▸ h.queue, ha.displaced ▸ h.displaced, ha.sent ▸ h.sent, h.took, h.answers⟩

-- What one turn of `restore` did: a pull request with an entry is only taken off the record; one without is
-- queued, and taken off the record once the call answered.
inductive Restores (checks : Checks Proof) (fate : ℕ → Fate) (pull : PullRequest) (before after : World) :
    Except String Bool → Prop
  | failed (message : String) (hs : Alike before after)
      (hf : (∀ n, fate n = .answers) → checks.refusal pull.url pull.headRefOid pull.body ≠ none) :
      Restores checks fate pull before after (.error message)
  | unqueued (message : String) (took : Bool) (hi : pull.id ∉ before.ids)
      (hs : Enqueues fate pull took (some message) before after) :
      Restores checks fate pull before after (.error message)
  | present (hi : pull.id ∈ before.ids) (hs : Alike (before.discard pull.url) after) :
      Restores checks fate pull before after (.ok false)
  | queued (mid : World) (hi : pull.id ∉ before.ids) (hs : Enqueues fate pull true none before mid)
      (hd : after = mid.discard pull.url) : Restores checks fate pull before after (.ok true)

theorem restoreOne_spec {result : Except String Bool}
    (h : restoreOne checks fate pull before = (after, result)) :
    Restores checks fate pull before after result := by
  unfold restoreOne at h
  split at h
  case h_1 ha =>
    cases h
    exact .failed _ (ask_alike ha) fun hf => by cases ask_answers hf ha
  case h_2 asked ha =>
    have hb := ask_alike ha
    split at h
    case h_1 he =>
      cases h
      refine .present ?_ ⟨hb.queue, ?_, hb.sent⟩
      · by_contra hi
        rw [← hb.ids, ← mergeQueueEntry_none] at hi
        rw [hi] at he
        cases he
      · simp [World.discard, hb.displaced]
    case h_2 he =>
      have hi : pull.id ∉ before.ids := by
        rw [← hb.ids]
        exact mergeQueueEntry_none.mp he
      split at h
      case h_1 hr =>
        cases h
        refine .failed _ (hb.trans (require_alike hr)) fun hf => ?_
        rw [← require_answers hf hr]
        exact Option.some_ne_none _
      case h_2 hr =>
        have hb := hb.trans (require_alike hr)
        split at h
        case h_1 hq =>
          cases h
          obtain ⟨took, hq⟩ := enqueue_spec hq
          exact .unqueued _ took hi (hq.since hb)
        case h_2 hq =>
          cases h
          obtain ⟨took, hq⟩ := enqueue_spec hq
          cases hq.took rfl
          exact .queued _ hi (hq.since hb) rfl

-- What `restore` did: those without an entry are queued again in their order up to the first that failed, and
-- every other one has an entry or is still on the record.
structure Restored (checks : Checks Proof) (fate : ℕ → Fate) (pulls back : List PullRequest)
    (restored errors : List String) (before after : World) : Prop where
  front : back <+: pulls.filter (·.id ∉ before.ids)
  queue : after.queue = before.queue ++ back.map (⟨.queued, ·⟩)
  kept : ∀ pull ∈ pulls, pull.id ∈ after.ids ∨
    errors ≠ [] ∧ after.displaced pull.url = before.displaced pull.url
  discarded : ∀ url, before.displaced url = none → after.displaced url = none
  dequeued : ∀ id took, .dequeue id took ∈ after.sent ↔ .dequeue id took ∈ before.sent
  queued : ∀ id took, .queue id took ∈ after.sent →
    .queue id took ∈ before.sent ∨ id ∈ pulls.map (·.id) ∧ id ∉ before.ids
  done : errors = [] → back = pulls.filter (·.id ∉ before.ids) ∧ restored = back.map (·.url) ∧
    ∀ pull ∈ pulls, after.displaced pull.url = none
  answers : (∀ n, fate n = .answers) →
    (∀ pull ∈ pulls, checks.refusal pull.url pull.headRefOid pull.body = none) → errors = []

-- A turn of `restore` that did not fail.
structure PutBack (pull : PullRequest) (again : Bool) (before after : World) : Prop where
  absent : again = decide (pull.id ∉ before.ids)
  queue : after.queue = before.queue ++ if again then [⟨.queued, pull⟩] else []
  displaced : after.displaced = (before.discard pull.url).displaced
  dequeued : ∀ id took, .dequeue id took ∈ after.sent ↔ .dequeue id took ∈ before.sent
  queued : ∀ id took, .queue id took ∈ after.sent →
    .queue id took ∈ before.sent ∨ id = pull.id ∧ pull.id ∉ before.ids

theorem Restores.putBack {again : Bool} (h : Restores checks fate pull before after (.ok again)) :
    PutBack pull again before after := by
  cases h with
  | present hi hs =>
    exact ⟨by simp [hi], by simp [hs.queue, World.discard], hs.displaced, by simp [hs.sent, World.discard],
      fun id took hq => .inl (by simpa [hs.sent, World.discard] using hq)⟩
  | queued mid hi hs hd =>
    subst hd
    refine ⟨by simp [hi], by simp [hs.queue, World.discard], by simp [hs.displaced, World.discard],
      by simp [hs.sent, World.discard], fun id took hq => ?_⟩
    simp only [World.discard, hs.sent, List.mem_append, List.mem_singleton, Mutation.queue.injEq] at hq
    cases hq with
    | inl hq => exact .inl hq
    | inr hq => exact .inr ⟨hq.1, hi⟩

theorem PutBack.ids {again : Bool} (h : PutBack pull again before after) :
    after.ids = before.ids ++ if again then [pull.id] else [] := by
  simp only [World.ids, h.queue, List.map_append]
  cases again <;> simp

theorem PutBack.mem_ids {again : Bool} (h : PutBack pull again before after) : pull.id ∈ after.ids := by
  rw [h.ids, h.absent]
  by_cases hi : pull.id ∈ before.ids <;> simp [hi]

theorem PutBack.other {again : Bool} {id : String} (h : PutBack pull again before after)
    (hi : id ≠ pull.id) : id ∈ after.ids ↔ id ∈ before.ids := by
  rw [h.ids]
  cases again <;> simp [hi]

-- The loop over those left goes on as it would have without the one put back.
theorem Restored.cons {pulls back : List PullRequest} {restored errors : List String} {mid : World}
    {again : Bool} (hn : ((pull :: pulls).map (·.id)).Nodup)
    (hu : ((pull :: pulls).map (·.url)).Nodup) (hs : PutBack pull again before mid)
    (hr : Restored checks fate pulls back restored errors mid after) :
    Restored checks fate (pull :: pulls) (if again then pull :: back else back)
      (if again then pull.url :: restored else restored) errors before after := by
  rw [List.map_cons, List.nodup_cons] at hn hu
  have hi : ∀ other ∈ pulls, (other.id ∈ mid.ids ↔ other.id ∈ before.ids) := by
    intro other ho
    exact hs.other fun hi => hn.1 (hi ▸ List.mem_map_of_mem ho)
  have hd : ∀ other ∈ pulls, mid.displaced other.url = before.displaced other.url := by
    intro other ho
    have hi : other.url ≠ pull.url := fun hi => hu.1 (hi ▸ List.mem_map_of_mem ho)
    simp [hs.displaced, World.discard, hi]
  have hf : pulls.filter (·.id ∉ mid.ids) = pulls.filter (·.id ∉ before.ids) :=
    List.filter_congr fun other ho => by simp [hi other ho]
  have hc : (pull :: pulls).filter (·.id ∉ before.ids) =
      (if again then [pull] else []) ++ pulls.filter (·.id ∉ before.ids) := by
    rw [List.filter_cons, hs.absent]
    by_cases hp : pull.id ∈ before.ids <;> simp [hp]
  have hb : (if again then pull :: back else back) = (if again then [pull] else []) ++ back := by
    cases again <;> rfl
  have hm : mid.displaced pull.url = none := by simp [hs.displaced, World.discard]
  refine ⟨?_, ?_, ?_, ?_, ?_, ?_, ?_, ?_⟩
  · rw [hc, hb, List.prefix_append_right_inj, ← hf]
    exact hr.front
  · rw [hr.queue, hs.queue, hb, List.append_assoc, List.map_append]
    cases again <;> rfl
  · intro other ho
    cases List.mem_cons.mp ho with
    | inl he =>
      subst he
      refine .inl ?_
      rw [World.ids, hr.queue, List.map_append]
      exact List.mem_append_left _ hs.mem_ids
    | inr ho =>
      rw [← hd other ho]
      exact hr.kept other ho
  · intro url hu
    apply hr.discarded
    by_cases he : url = pull.url
    · rw [he, hm]
    · simp [hs.displaced, World.discard, he, hu]
  · intro id took
    rw [hr.dequeued, hs.dequeued]
  · intro id took hq
    cases hr.queued id took hq with
    | inl hq =>
      cases hs.queued id took hq with
      | inl hq => exact .inl hq
      | inr hq => exact .inr ⟨hq.1 ▸ List.mem_cons_self, hq.1 ▸ hq.2⟩
    | inr hq =>
      obtain ⟨hm, hq⟩ := hq
      refine .inr ⟨List.mem_cons_of_mem _ hm, fun hi => hq ?_⟩
      rw [hs.ids]
      exact List.mem_append_left _ hi
  · intro he
    obtain ⟨h₁, h₂, h₃⟩ := hr.done he
    refine ⟨by rw [hb, hc, h₁, hf], ?_, fun other ho => ?_⟩
    · rw [hb, h₂]
      cases again <;> rfl
    · cases List.mem_cons.mp ho with
      | inl he => exact he ▸ hr.discarded _ hm
      | inr ho => exact h₃ other ho
  · intro hf hr'
    exact hr.answers hf fun other ho => hr' other (List.mem_cons_of_mem _ ho)

theorem restores_spec {pulls : List PullRequest} {restored errors : List String}
    (hn : (pulls.map (·.id)).Nodup) (hu : (pulls.map (·.url)).Nodup)
    (h : restores checks fate pulls before = (after, restored, errors)) :
    ∃ back, Restored checks fate pulls back restored errors before after := by
  induction pulls generalizing before restored errors with
  | nil =>
    cases h
    exact ⟨[], by simp, by simp, by simp, fun _ hd => hd, by simp, fun _ _ hd => .inl hd, by simp,
      by simp⟩
  | cons pull pulls ih =>
    unfold restores at h
    split at h
    case h_1 message hs =>
      cases h
      cases restoreOne_spec hs with
      | failed _ hs hf =>
        exact ⟨[], by simp, by simp [hs.queue], fun other _ => .inr ⟨by simp, by rw [hs.displaced]⟩,
          fun url hd => by rw [hs.displaced, hd], by simp [hs.sent],
          fun id took hq => .inl (by simpa [hs.sent] using hq), by simp,
          fun hf' hr => absurd (hr pull List.mem_cons_self) (hf hf')⟩
      | unqueued _ took hi hs =>
        have hb : (if took then [pull] else []) <+: (pull :: pulls).filter (·.id ∉ before.ids) := by
          cases took with
          | false => simp
          | true => exact ⟨pulls.filter (·.id ∉ before.ids), by simp [hi]⟩
        refine ⟨if took then [pull] else [], hb, ?_, fun other _ => .inr ⟨by simp, by rw [hs.displaced]⟩,
          fun url hd => by rw [hs.displaced, hd], by simp [hs.sent], fun id took' hq => ?_, by simp,
          fun hf _ => by cases hs.answers hf⟩
        · rw [hs.queue]
          cases took <;> rfl
        · simp only [hs.sent, List.mem_append, List.mem_singleton, Mutation.queue.injEq] at hq
          cases hq with
          | inl hq => exact .inl hq
          | inr hq => exact .inr ⟨hq.1 ▸ List.mem_cons_self, hq.1 ▸ hi⟩
    case h_2 again hs =>
      split at h
      case h_1 mid hr =>
        cases h
        obtain ⟨back, hr⟩ := ih (List.nodup_cons.mp hn).2 (List.nodup_cons.mp hu).2 hr
        exact ⟨_, .cons hn hu (restoreOne_spec hs).putBack hr⟩

-- What the turn of the target did to the queue: it appended the target, where that had no entry.
structure Targeted (target : PullRequest) (before after : World) : Prop where
  queue : ∃ back, after.queue = before.queue ++ back ∧
    (back = [] ∨ target.id ∉ before.ids ∧ back = [⟨.queued, target⟩])
  displaced : after.displaced = before.displaced
  dequeued : ∀ id took, .dequeue id took ∈ after.sent ↔ .dequeue id took ∈ before.sent
  queued : ∀ id took, .queue id took ∈ after.sent →
    .queue id took ∈ before.sent ∨ id = target.id ∧ target.id ∉ before.ids

theorem Targeted.idle (h : Alike before after) : Targeted target before after :=
  ⟨⟨[], by simp [h.queue], .inl rfl⟩, h.displaced, by simp [h.sent],
    fun _ _ hq => .inl (by simpa [h.sent] using hq)⟩

theorem Enqueues.targeted {took : Bool} (hi : target.id ∉ before.ids)
    (h : Enqueues fate target took failed before after) : Targeted target before after := by
  refine ⟨⟨_, h.queue, ?_⟩, h.displaced, by simp [h.sent], fun id took' hq => ?_⟩
  · cases took with
    | false => exact .inl rfl
    | true => exact .inr ⟨hi, rfl⟩
  · simp only [h.sent, List.mem_append, List.mem_singleton, Mutation.queue.injEq] at hq
    cases hq with
    | inl hq => exact .inl hq
    | inr hq => exact .inr ⟨hq.1, hi⟩

theorem queueTarget_spec (h : queueTarget fate target before = (after, failed)) :
    Targeted target before after ∧
      ((∀ n, fate n = .answers) → failed = none ∧ target.id ∈ after.ids) := by
  unfold queueTarget at h
  split at h
  case h_1 ha =>
    cases h
    exact ⟨.idle (ask_alike ha), fun hf => by cases ask_answers hf ha⟩
  case h_2 asked ha =>
    have hb := ask_alike ha
    split at h
    case h_1 he =>
      cases h
      refine ⟨.idle hb, fun _ => ⟨rfl, ?_⟩⟩
      by_contra hi
      rw [mergeQueueEntry_none.mpr hi] at he
      cases he
    case h_2 he =>
      obtain ⟨took, hq⟩ := enqueue_spec h
      refine ⟨(hq.since hb).targeted (hb.ids ▸ mergeQueueEntry_none.mp he), fun hf => ?_⟩
      have hn := hq.answers hf
      exact ⟨hn, by simp [World.ids, hq.queue, hq.took hn]⟩

-- The three passes of `reorder`, from the world in which the waiting ones are on the record.
structure Passes (checks : Checks Proof) (fate : ℕ → Fate) (target : PullRequest)
    (waiting gone taken back : List PullRequest) (failed unqueued : Option String)
    (restored errors : List String) (before emptied placed after : World) : Prop where
  dequeued : Dequeued fate waiting.reverse gone taken failed (waiting.foldl World.add before) emptied
  targeted : Targeted target emptied placed
  restored : Restored checks fate gone.reverse back restored errors placed after
  answers : (∀ n, fate n = .answers) → unqueued = none ∧ target.id ∈ placed.ids

theorem reorder_passes {url : String} {queued : Bool} {waiting : List PullRequest} {report : Report}
    (hw : ∀ pull ∈ waiting, before.mergeQueueEntry pull.id = some .queued)
    (hn : (waiting.map (·.id)).Nodup) (hu : (waiting.map (·.url)).Nodup)
    (h : reorder checks fate target url queued waiting before = (after, report)) :
    ∃ gone taken back failed unqueued restored errors emptied placed,
      Passes checks fate target waiting gone taken back failed unqueued restored errors before
        emptied placed after ∧
      report = ⟨url, restored, failed.toList ++ unqueued.toList ++ errors⟩ := by
  unfold reorder at h
  rcases hd : displace fate waiting before with ⟨emptied, removed, failed⟩
  rw [hd] at h
  rcases ht : (if failed.isNone || queued then queueTarget fate target emptied
    else (emptied, none)) with ⟨placed, unqueued⟩
  simp only [ht] at h
  rcases hr : restore checks fate removed placed with ⟨last, restored, errors⟩
  rw [hr] at h
  cases h
  have hq : ∀ pull ∈ waiting.reverse,
      (waiting.foldl World.add before).mergeQueueEntry pull.id = some .queued := by
    intro pull hp
    rw [mergeQueueEntry, (foldl_add waiting before).1]
    exact hw pull (List.mem_reverse.mp hp)
  have hn' : (waiting.reverse.map (·.id)).Nodup := by simpa [List.map_reverse] using hn
  obtain ⟨gone, taken, hg, hd⟩ := dequeues_spec hq hn' hd
  have hs : gone.reverse.Sublist waiting := by simpa using hd.front.sublist.reverse
  rw [restore, hg, List.nil_append] at hr
  obtain ⟨back, hr⟩ := restores_spec ((hs.map _).nodup hn) ((hs.map _).nodup hu) hr
  have ht : Targeted target emptied placed ∧
      ((∀ n, fate n = .answers) → unqueued = none ∧ target.id ∈ placed.ids) := by
    split at ht
    · exact queueTarget_spec ht
    case isFalse hc =>
      cases ht
      refine ⟨.idle .refl, fun hf => ?_⟩
      simp [hd.answers hf] at hc
  exact ⟨gone, taken, back, failed, unqueued, restored, errors, emptied, placed,
    ⟨hd, ht.1, hr, ht.2⟩, rfl⟩

-- What is put off for a target: queued pull requests of the queue other than the target.
structure Waits (github : GitHub) (target : PullRequest) (waiting : List PullRequest)
    (world : World) : Prop where
  sound : world.Sound github
  front : waiting.Sublist (world.queue.map (·.pullRequest))
  queued : ∀ pull ∈ waiting, world.mergeQueueEntry pull.id = some .queued
  others : target.id ∉ waiting.map (·.id)
  fresh : world.sent = []

namespace Waits

variable {waiting : List PullRequest} (h : Waits github target waiting world)

include h

theorem entry_eq {entry : Entry} (he : entry ∈ world.queue) (hp : pull ∈ waiting)
    (hi : entry.pullRequest.id = pull.id) : entry.pullRequest = pull := by
  obtain ⟨other, ho, rfl⟩ := List.mem_map.mp (h.front.subset hp)
  rw [List.inj_on_of_nodup_map h.sound.once he ho hi]

theorem ids_nodup : (waiting.map (·.id)).Nodup := by
  have hs := h.front.map (·.id)
  rw [List.map_map] at hs
  exact hs.nodup h.sound.once

theorem urls_nodup : (waiting.map (·.url)).Nodup := by
  refine (List.nodup_map_iff_inj_on (List.Nodup.of_map _ h.ids_nodup)).mpr fun p hp q hq hu => ?_
  have hm : ∀ pull ∈ waiting, pull ∈ github.pulls := by
    intro pull hp
    obtain ⟨entry, he, rfl⟩ := List.mem_map.mp (h.front.subset hp)
    exact h.sound.pulls entry he
  exact List.inj_on_of_nodup_map github.urls (hm p hp) (hm q hq) hu

end Waits

-- The queue is put back: what was queued is queued or on the record with an error, what was put back keeps
-- its order, and nothing else was queued again.
structure PutsBack (before after : World) (errors : List String) : Prop where
  kept : ∀ entry ∈ before.queue, entry.pullRequest.id ∈ after.ids ∨
    errors ≠ [] ∧ ∃ n, after.displaced entry.pullRequest.url = some (entry.pullRequest, n)
  ordered : ((after.queue.filter fun entry => .dequeue entry.pullRequest.id true ∈ after.sent).map
    (·.pullRequest)).Sublist (before.queue.map (·.pullRequest))
  untouched : ∀ entry ∈ before.queue, .dequeue entry.pullRequest.id true ∉ after.sent →
    ∀ took, .queue entry.pullRequest.id took ∉ after.sent

-- The target is queued ahead of those displaced, which follow in their order and have left the record.
structure Ahead (target : PullRequest) (waiting : List PullRequest) (report : Report)
    (after : World) : Prop where
  errors : report.errors = []
  displaced : report.displaced = waiting.map (·.url)
  queue : ∃ front, after.queue = front ++ waiting.map (⟨.queued, ·⟩) ∧
    target.id ∈ front.map (·.pullRequest.id)
  discarded : ∀ pull ∈ waiting, after.displaced pull.url = none

namespace Passes

variable {waiting gone taken back : List PullRequest} {unqueued : Option String}
variable {restored errors : List String} {emptied placed : World}
variable (hw : Waits github target waiting before)
variable (h : Passes checks fate target waiting gone taken back failed unqueued restored errors
  before emptied placed after)

include h

theorem mem_waiting (hp : pull ∈ gone) : pull ∈ waiting :=
  List.mem_reverse.mp (h.dequeued.front.subset hp)

theorem mem_gone (hp : pull ∈ taken) : pull ∈ gone := by
  cases h.dequeued.spared with
  | inl he => exact he ▸ hp
  | inr he =>
    obtain ⟨last, he⟩ := he
    exact he ▸ List.mem_append_left _ hp

theorem mem_emptied {entry : Entry} (he : entry ∈ before.queue)
    (ht : entry.pullRequest.id ∉ taken.map (·.id)) : entry ∈ emptied.queue := by
  rw [h.dequeued.queue, (foldl_add waiting before).1, List.mem_filter]
  exact ⟨he, by simpa using ht⟩

theorem mem_placed {id : String} (hi : id ∈ emptied.ids) : id ∈ placed.ids := by
  obtain ⟨own, he, -⟩ := h.targeted.queue
  rw [ids, he, List.map_append]
  exact List.mem_append_left _ hi

theorem mem_after {id : String} (hi : id ∈ placed.ids) : id ∈ after.ids := by
  rw [ids, h.restored.queue, List.map_append]
  exact List.mem_append_left _ hi

include hw

theorem dequeued_iff {id : String} : .dequeue id true ∈ after.sent ↔ id ∈ taken.map (·.id) := by
  rw [h.restored.dequeued, h.targeted.dequeued, h.dequeued.dequeued, (foldl_add waiting before).2,
    hw.fresh]
  simp

theorem kept {entry : Entry} (he : entry ∈ before.queue) : entry.pullRequest.id ∈ after.ids ∨
    errors ≠ [] ∧ ∃ n, after.displaced entry.pullRequest.url = some (entry.pullRequest, n) := by
  by_cases ht : entry.pullRequest.id ∈ taken.map (·.id)
  · obtain ⟨pull, hp, hi⟩ := List.mem_map.mp ht
    have hg := h.mem_gone hp
    have hm := h.mem_waiting hg
    rw [hw.entry_eq he hm hi.symm]
    refine (h.restored.kept pull (List.mem_reverse.mpr hg)).imp_right fun hd => ⟨hd.1, ?_⟩
    rw [hd.2, h.targeted.displaced, h.dequeued.displaced]
    exact foldl_add_mem hw.urls_nodup hm
  · exact .inl (h.mem_after (h.mem_placed (mem_ids (h.mem_emptied he ht))))

theorem ordered : ((after.queue.filter fun entry => .dequeue entry.pullRequest.id true ∈ after.sent).map
    (·.pullRequest)).Sublist (before.queue.map (·.pullRequest)) := by
  obtain ⟨entry, he, ht⟩ := h.targeted.queue
  have h₁ : (emptied.queue.filter fun entry => .dequeue entry.pullRequest.id true ∈ after.sent) = [] := by
    rw [h.dequeued.queue, List.filter_filter]
    simp [h.dequeued_iff hw]
  have h₂ : (entry.filter fun entry => .dequeue entry.pullRequest.id true ∈ after.sent) = [] := by
    cases ht with
    | inl ht => simp [ht]
    | inr ht =>
      have hn : target.id ∉ taken.map (·.id) := by
        intro hm
        obtain ⟨pull, hp, hi⟩ := List.mem_map.mp hm
        exact hw.others (hi ▸ List.mem_map_of_mem (h.mem_waiting (h.mem_gone hp)))
      simpa [ht.2, h.dequeued_iff hw] using hn
  rw [h.restored.queue, he, List.filter_append, List.filter_append, h₁, h₂, List.nil_append,
    List.nil_append]
  have hb : back.Sublist waiting := by
    refine h.restored.front.sublist.trans (List.filter_sublist.trans ?_)
    simpa using h.dequeued.front.sublist.reverse
  have hs := (List.filter_sublist (l := back.map (Entry.mk .queued))
    (p := fun entry => .dequeue entry.pullRequest.id true ∈ after.sent)).map (·.pullRequest)
  rw [List.map_map] at hs
  simpa using hs.trans (by simpa [Function.comp_def] using hb.trans hw.front)

theorem untouched {entry : Entry} (he : entry ∈ before.queue)
    (ht : .dequeue entry.pullRequest.id true ∉ after.sent) (took : Bool) :
    .queue entry.pullRequest.id took ∉ after.sent := by
  rw [h.dequeued_iff hw] at ht
  have hm := mem_ids (h.mem_emptied he ht)
  intro hq
  cases h.restored.queued _ took hq with
  | inr hq => exact hq.2 (h.mem_placed hm)
  | inl hq =>
    cases h.targeted.queued _ took hq with
    | inr hq => exact hq.2 (hq.1 ▸ hm)
    | inl hq =>
      rw [h.dequeued.queued, (foldl_add waiting before).2, hw.fresh] at hq
      cases hq

theorem ahead (hf : ∀ n, fate n = .answers)
    (hr : ∀ pull ∈ waiting, checks.refusal pull.url pull.headRefOid pull.body = none) {url : String} :
    Ahead target waiting ⟨url, restored, failed.toList ++ unqueued.toList ++ errors⟩ after := by
  have hd := h.dequeued.answers hf
  obtain ⟨hg, ht⟩ := h.dequeued.done hd
  obtain ⟨hu, hi⟩ := h.answers hf
  have he : errors = [] := h.restored.answers hf fun pull hp => hr pull (by simpa [hg] using hp)
  obtain ⟨hb, hs, hn⟩ := h.restored.done he
  have hp : ∀ pull ∈ waiting, pull.id ∉ placed.ids := by
    intro pull hp
    obtain ⟨entry, hq, ho⟩ := h.targeted.queue
    rw [ids, hq, h.dequeued.queue, ht, List.map_append, List.mem_append]
    rintro (hm | hm)
    · obtain ⟨entry, he, hi⟩ := List.mem_map.mp hm
      have := (List.mem_filter.mp he).2
      simp only [List.map_reverse, List.mem_reverse, decide_not, Bool.not_eq_true',
        decide_eq_false_iff_not] at this
      exact this (hi ▸ List.mem_map_of_mem hp)
    · cases ho with
      | inl ho => simp [ho] at hm
      | inr ho =>
        rw [ho.2] at hm
        have hi : pull.id = target.id := List.mem_singleton.mp hm
        exact hw.others (hi ▸ List.mem_map_of_mem hp)
  have hb : back = waiting := by
    rw [hb, hg, List.reverse_reverse, List.filter_eq_self]
    intro pull hm
    simpa using hp pull hm
  exact ⟨by simp [hd, hu, he], by rw [hs, hb], ⟨placed.queue, by rw [h.restored.queue, hb], hi⟩,
    fun pull hp => hn pull (by simpa [hg] using hp)⟩

end Passes

-- What a run displaces for its target.
def waits (target : PullRequest) (ahead : List String) (world : World) : List PullRequest :=
  (others target.id world.queue).filter fun pull => pull.url ∉ ahead

theorem waits_waiting (target : PullRequest) (ahead : List String) (hs : world.Sound github) (hf : world.sent = []) :
    Waits github target (waits target ahead world) world where
  sound := hs
  front := List.filter_sublist.trans (List.filter_sublist.map _)
  queued pull hp := by
    obtain ⟨entry, he, rfl⟩ := List.mem_map.mp (List.mem_filter.mp hp).1
    obtain ⟨he, hq⟩ := List.mem_filter.mp he
    rw [mergeQueueEntry_eq hs.once he]
    simp only [ne_eq, decide_not, Bool.decide_and, Bool.and_eq_true, Bool.not_eq_true',
      decide_eq_false_iff_not, decide_eq_true_eq] at hq
    rw [hq.2]
  others hm := by
    obtain ⟨pull, hp, hi⟩ := List.mem_map.mp hm
    obtain ⟨entry, he, rfl⟩ := List.mem_map.mp (List.mem_filter.mp hp).1
    have := (List.mem_filter.mp he).2
    simp [hi] at this
  fresh := hf

theorem Waits.alike {waiting : List PullRequest} (h : Waits github target waiting before)
    (ha : Alike before after) : Waits github target waiting after where
  sound := ⟨ha.queue ▸ h.sound.pulls, ha.ids ▸ h.sound.once⟩
  front := ha.queue ▸ h.front
  queued pull hp := by
    rw [mergeQueueEntry, ha.queue]
    exact h.queued pull hp
  others := h.others
  fresh := ha.sent ▸ h.fresh

theorem prioritize_putsBack {url : String} {ahead : List String} {result : Except String Report}
    (hs : world.Sound github) (hf : world.sent = [])
    (h : prioritize checks fate github url ahead world = (after, result)) :
    (∀ message, result = .error message →
      after.queue = world.queue ∧ after.displaced = world.displaced ∧ after.sent = []) ∧
    ∀ report, result = .ok report →
      PutsBack world after report.errors ∧
      ∃ target, github.resource url = some target ∧
        ((∀ n, fate n = .answers) →
          (∀ pull ∈ waits target ahead world,
            checks.refusal pull.url pull.headRefOid pull.body = none) →
          Ahead target (waits target ahead world) report after) := by
  unfold prioritize at h
  split at h
  case h_1 ha =>
    cases h
    have ha := admit_alike ha
    exact ⟨fun _ _ => ⟨ha.queue, ha.displaced, ha.sent.trans hf⟩, fun _ hr => by cases hr⟩
  case h_2 admitted target hr =>
    have ha := admit_alike hr
    split at h
    case h_1 hp =>
      cases h
      have ha := ha.trans (waitingAround_spec hp).1
      exact ⟨fun _ _ => ⟨ha.queue, ha.displaced, ha.sent.trans hf⟩, fun _ hr => by cases hr⟩
    case h_2 read around hp =>
      obtain ⟨hb, hw⟩ := waitingAround_spec hp
      have ha' := ha.trans hb
      rw [hw around rfl, ha.queue] at h
      have hw := (waits_waiting target ahead hs hf).alike ha'
      rcases ho : reorder checks fate target url (read.mergeQueueEntry target.id).isSome
        (waits target ahead world) read with ⟨last, report⟩
      rw [waits] at ho
      simp only [ho] at h
      cases h
      refine ⟨fun _ hr => (by cases hr), fun report' he => ?_⟩
      cases he
      obtain ⟨gone, taken, back, failed, unqueued, restored, errors, emptied, placed, hp, he⟩ :=
        reorder_passes hw.queued hw.ids_nodup hw.urls_nodup ho
      subst he
      refine ⟨⟨fun entry he => ?_, ?_, fun entry he => ?_⟩, target, admit_resource hr, fun hf hr => ?_⟩
      · refine (hp.kept hw (ha'.queue ▸ he)).imp_right fun hk => ⟨?_, hk.2⟩
        simp [hk.1]
      · rw [← ha'.queue]
        exact hp.ordered hw
      · exact hp.untouched hw (ha'.queue ▸ he)
      · exact hp.ahead hw hf hr

-- A pull request into dev with its body.
def openPull (number body : String) : PullRequest :=
  ⟨"P" ++ number, "https://github.com/o/r/pull/" ++ number, "head" ++ number, "dev", "OPEN", false,
    true, body⟩

def three (body : String) : GitHub where
  pulls := [openPull "1" body, openPull "2" "", openPull "9" ""]
  ids := by
    show ["P1", "P2", "P9"].Nodup
    decide
  urls := by
    show (["1", "2", "9"].map ("https://github.com/o/r/pull/" ++ ·)).Nodup
    decide
  resource url := if url = "https://github.com/o/r/pull/9" then some (openPull "9" "") else none
  resource_mem h := by
    split at h
    · cases h
      simp
    · cases h

def passing : Checks Unit where
  loads _ := none
  complete _ := false
  verify _ _ _ := none
  green _ _ := none

def twoQueued (body : String) : World where
  queue := [⟨.queued, openPull "1" body⟩, ⟨.queued, openPull "2" ""⟩]
  displaced _ := none
  order := 0
  calls := 0
  sent := []

theorem twoQueued_sound (body : String) : (twoQueued body).Sound (three body) where
  pulls := by
    intro entry he
    simp only [twoQueued, List.mem_cons, List.not_mem_nil, or_false] at he
    rcases he with rfl | rfl <;> simp [three]
  once := by
    show ["P1", "P2"].Nodup
    decide

theorem prioritize_putsBack_two :
    Ahead (openPull "9" "") [openPull "1" "", openPull "2" ""]
      ⟨"https://github.com/o/r/pull/9",
        ["https://github.com/o/r/pull/1", "https://github.com/o/r/pull/2"], []⟩
      (prioritize passing (fun _ => .answers) (three "") "https://github.com/o/r/pull/9" []
        (twoQueued "")).1 := by
  obtain ⟨-, target, hr, ha⟩ := (prioritize_putsBack (twoQueued_sound "") rfl
    (show prioritize passing (fun _ => .answers) (three "") "https://github.com/o/r/pull/9" []
      (twoQueued "") = (_, .ok _) from rfl)).2 _ rfl
  cases hr
  exact ha (fun _ => rfl) (by decide)

-- A displaced pull request whose own declaration is refused stays out, with no failed call.
theorem prioritize_leaves_out :
    ¬ ∀ (github : GitHub) (url : String) (world : World) (report : Report),
      world.Sound github → world.sent = [] →
      (prioritize passing (fun _ => .answers) github url [] world).2 = .ok report →
      ∀ entry ∈ world.queue,
        (prioritize passing (fun _ => .answers) github url [] world).1.displaced
          entry.pullRequest.url = none := by
  intro h
  have hd := h (three marker) "https://github.com/o/r/pull/9" (twoQueued marker) _
    (twoQueued_sound marker) rfl rfl ⟨.queued, openPull "1" marker⟩ List.mem_cons_self
  have hs : ((prioritize passing (fun _ => .answers) (three marker) "https://github.com/o/r/pull/9" []
      (twoQueued marker)).1.displaced (openPull "1" marker).url).isSome := by decide
  rw [hd] at hs
  cases hs

end

end MergeQueue
