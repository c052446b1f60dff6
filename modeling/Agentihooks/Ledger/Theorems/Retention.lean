import Agentihooks.Ledger.Theorems.EventLog

namespace Ledger.EventLog

section Retained

variable {events : List Event} {ack : Option ℤ} {kept ceiling : ℕ} {horizon : ℤ}

theorem findIdx?_getD_le {p : Event → Bool} {i n : ℕ} (h : i < events.length) (hp : p events[i]) :
    (events.findIdx? p).getD n ≤ i := by
  cases hf : events.findIdx? p
  case none =>
    rw [List.findIdx?_eq_none_iff] at hf
    simp [hf _ (List.getElem_mem h)] at hp
  case some j =>
    rw [Option.getD_some]
    by_contra hlt
    obtain ⟨_, _, hb⟩ := List.findIdx?_eq_some_iff_getElem.mp hf
    exact hb i (by omega) hp

theorem findIdx?_take_getD_le (events : List Event) (p : Event → Bool) (n : ℕ) : ((events.take n).findIdx? p).getD n ≤ n := by
  cases hf : (events.take n).findIdx? p
  case none => exact le_rfl
  case some j =>
    obtain ⟨hj, _⟩ := List.findIdx?_eq_some_iff_getElem.mp hf
    rw [List.length_take] at hj
    rw [Option.getD_some]
    omega

variable (events ack kept ceiling horizon)

-- Where the log would start by its count and its acknowledgement, and what the horizon and the ceiling make of it.
theorem retained_eq : ∃ start ≤ events.length - kept,
    (∀ revision, ack = some revision → ∀ i (h : i < events.length), revision < events[i].rev.getD 0 → start ≤ i) ∧
    retained events ack kept ceiling horizon =
      max (((events.take start).findIdx? fun event => horizon < event.time.getD 0).getD start)
        (events.length - ceiling) := by
  cases ack
  case none => exact ⟨_, le_rfl, fun _ h => (by cases h), rfl⟩
  case some revision =>
    refine ⟨_, min_le_left _ _, fun revision' hr i h hlt => ?_, rfl⟩
    cases hr
    exact (min_le_right _ _).trans (findIdx?_getD_le h (by simpa using hlt))

theorem retained_le : retained events ack kept ceiling horizon ≤ events.length := by
  obtain ⟨start, hs, _, he⟩ := retained_eq events ack kept ceiling horizon
  have ht := findIdx?_take_getD_le events (fun event => horizon < event.time.getD 0) start
  omega

theorem length_sub_le_retained : events.length - ceiling ≤ retained events ack kept ceiling horizon := by
  obtain ⟨_, _, _, he⟩ := retained_eq events ack kept ceiling horizon
  rw [he]
  exact le_max_right _ _

variable {events ack kept ceiling horizon} {i : ℕ}

theorem retained_le_of_newest (hc : events.length - ceiling ≤ i) (hk : events.length - kept ≤ i) :
    retained events ack kept ceiling horizon ≤ i := by
  obtain ⟨start, hs, _, he⟩ := retained_eq events ack kept ceiling horizon
  have ht := findIdx?_take_getD_le events (fun event => horizon < event.time.getD 0) start
  omega

theorem retained_le_of_ack (h : i < events.length) (hc : events.length - ceiling ≤ i) {revision : ℤ}
    (ha : ack = some revision) (hr : revision < events[i].rev.getD 0) :
    retained events ack kept ceiling horizon ≤ i := by
  obtain ⟨start, _, hs, he⟩ := retained_eq events ack kept ceiling horizon
  have ht := findIdx?_take_getD_le events (fun event => horizon < event.time.getD 0) start
  have hi := hs revision ha i h hr
  omega

theorem retained_le_of_horizon (h : i < events.length) (hc : events.length - ceiling ≤ i)
    (ht : horizon < events[i].time.getD 0) : retained events ack kept ceiling horizon ≤ i := by
  obtain ⟨start, _, _, he⟩ := retained_eq events ack kept ceiling horizon
  rw [he]
  refine max_le ?_ hc
  by_cases hi : i < start
  case pos =>
    have hl : i < (events.take start).length := by
      rw [List.length_take]
      exact lt_min hi h
    exact findIdx?_getD_le hl (by simpa using ht)
  case neg => exact (findIdx?_take_getD_le _ _ _).trans (Nat.le_of_not_lt hi)

end Retained

-- The events that only the ceiling may cut.
def Wanted (core : Core) (doc : Meta) (time : ℤ) (event : Event) : Prop :=
  (∃ revision, doc.ack = some revision ∧ revision < event.rev.getD 0) ∨ time - core.eventsWindow < event.time.getD 0

-- What a trimmed log keeps of the events it held together with the new ones.
structure Retains (core : Core) (time : ℤ) (log : List Event) (doc : Meta) : Prop where
  suffix  : doc.log <:+ log
  ceiling : doc.log.length ≤ core.eventsCeiling
  newest  : ∀ event newer, event :: newer <:+ log → newer.length < core.eventsKept → event :: newer <:+ doc.log
  wanted  : ∀ event newer, event :: newer <:+ log → newer.length < core.eventsCeiling →
    Wanted core doc time event → event :: newer <:+ doc.log

section Keep

variable {core : Core} {doc after : Meta} {events : List Event} {time : ℤ}

theorem keepEvents_cases (h : keepEvents core doc events time = some after) : ∃ start,
    start = retained (doc.log ++ events) doc.ack core.eventsKept core.eventsCeiling (time - core.eventsWindow) ∧
    doc.events ≠ none ∧ after.events = some ((doc.log ++ events).drop start) ∧ after.rev = doc.rev ∧
    after.ack = doc.ack ∧ after.trimmed =
      if start = 0 then doc.trimmed else (doc.log ++ events)[start - 1]?.map fun event => event.rev.getD 0 := by
  rw [keepEvents, Option.map_eq_some_iff] at h
  obtain ⟨held, hh, rfl⟩ := h
  have hl : doc.log = held := by rw [Meta.log, hh, Option.getD_some]
  rw [hl]
  exact ⟨_, rfl, by simp [hh], rfl, rfl, rfl, rfl⟩

theorem keepEvents_retains (h : keepEvents core doc events time = some after) :
    Retains core time (doc.log ++ events) after := by
  obtain ⟨start, hs, _, he, _, ha, _⟩ := keepEvents_cases h
  have hl : after.log = (doc.log ++ events).drop start := by rw [Meta.log, he, Option.getD_some]
  have hk {event : Event} {newer older : List Event} (ho : older ++ event :: newer = doc.log ++ events)
      (hle : start ≤ older.length) : event :: newer <:+ after.log := by
    rw [hl, ← ho, List.drop_append_of_le_length hle]
    exact List.suffix_append _ _
  have hlen := length_sub_le_retained (doc.log ++ events) doc.ack core.eventsKept core.eventsCeiling
    (time - core.eventsWindow)
  rw [← hs] at hlen
  constructor
  case suffix => exact hl ▸ List.drop_suffix _ _
  case ceiling =>
    rw [hl, List.length_drop]
    omega
  case newest =>
    rintro event newer ⟨older, ho⟩ hn
    refine hk ho ?_
    have hle := core.kept_le
    rw [hs, ← ho]
    apply retained_le_of_newest <;> simp only [List.length_append, List.length_cons] <;> omega
  case wanted =>
    rintro event newer ⟨older, ho⟩ hn hw
    refine hk ho ?_
    have hi : older.length < (older ++ event :: newer).length := by simp
    have hc : (older ++ event :: newer).length - core.eventsCeiling ≤ older.length := by
      simp only [List.length_append, List.length_cons]
      omega
    rw [hs, ← ho]
    cases hw
    case inl hr =>
      obtain ⟨revision, hr, hlt⟩ := hr
      exact retained_le_of_ack hi hc (ha.symm.trans hr) (by simpa using hlt)
    case inr ht => exact retained_le_of_horizon hi hc (by simpa using ht)

end Keep

section Apply

variable {core : Core} {m : Mutation} {created : Bool} {doc after : Meta}

theorem acknowledge_fields (doc : Meta) (revision : ℤ) :
    (acknowledge doc revision).rev = doc.rev ∧ (acknowledge doc revision).events = doc.events ∧
      (acknowledge doc revision).trimmed = doc.trimmed := by
  rw [acknowledge]
  split_ifs
  case pos => exact ⟨rfl, rfl, rfl⟩
  case neg => exact ⟨rfl, rfl, rfl⟩

theorem acknowledged_fields (doc : Meta) (acks : List ℤ) : (acks.foldl acknowledge doc).rev = doc.rev ∧
    (acks.foldl acknowledge doc).events = doc.events ∧ (acks.foldl acknowledge doc).trimmed = doc.trimmed := by
  induction acks generalizing doc
  case nil => exact ⟨rfl, rfl, rfl⟩
  case cons revision acks hi =>
    obtain ⟨hr, he, ht⟩ := hi (acknowledge doc revision)
    obtain ⟨hr', he', ht'⟩ := acknowledge_fields doc revision
    exact ⟨hr.trans hr', he.trans he', ht.trans ht'⟩

theorem events_eq_nil (h : m.changed = false) : m.events doc = [] := by
  rw [Mutation.changed, Bool.or_eq_false_iff, Bool.not_eq_false', List.isEmpty_iff] at h
  rw [Mutation.events, h.left, List.map_nil]

theorem rev_of_mem_events {event : Event} (h : event ∈ m.events doc) : event.rev = some (doc.rev + 1) := by
  rw [Mutation.events, List.mem_map] at h
  obtain ⟨_, _, rfl⟩ := h
  rfl

-- Either the ledger changed, its events are in the log and the log is trimmed, or the log is the one before.
theorem apply_cases (h : m.apply core created doc = some after) :
    ((m.changed || created) = true ∧ ∃ held : Meta, held.rev = doc.rev + 1 ∧ held.events = doc.events ∧
      held.trimmed = doc.trimmed ∧ keepEvents core held (m.events doc) m.time = some after) ∨
    (m.changed = false ∧ after.rev = doc.rev ∧ after.events = doc.events ∧ after.trimmed = doc.trimmed) := by
  obtain ⟨hr, he, ht⟩ := acknowledged_fields doc m.acks
  rw [Mutation.apply] at h
  split_ifs at h with hc
  case pos => exact .inl ⟨hc, { m.acks.foldl acknowledge doc with rev := doc.rev + 1 }, rfl, he, ht, h⟩
  case neg =>
    cases h
    rw [Bool.not_eq_true, Bool.or_eq_false_iff] at hc
    exact .inr ⟨hc.left, hr, he, ht⟩

theorem apply_retains (h : m.apply core created doc = some after) (hc : (m.changed || created) = true) :
    Retains core m.time (doc.log ++ m.events doc) after := by
  rw [Mutation.apply] at h
  rw [if_pos hc] at h
  have hl : ({ m.acks.foldl acknowledge doc with rev := doc.rev + 1 } : Meta).log = doc.log := by
    rw [Meta.log, (acknowledged_fields doc m.acks).right.left]
    rfl
  exact hl ▸ keepEvents_retains h

-- The log loses its first events, and the last one of these is the one that is marked.
structure Drops (doc after : Meta) (log : List Event) (start : ℕ) : Prop where
  le      : start ≤ log.length
  kept    : after.log = log.drop start
  absent  : after.events = none → start = 0
  same    : start = 0 → after.trimmed = doc.trimmed
  trimmed : ∀ h : start - 1 < log.length, start ≠ 0 → after.trimmed = some (log[start - 1].rev.getD 0)

theorem apply_drops (h : m.apply core created doc = some after) :
    ∃ start, Drops doc after (doc.log ++ m.events doc) start := by
  cases apply_cases h
  case inl h =>
    obtain ⟨_, held, _, he, ht, hk⟩ := h
    obtain ⟨start, hs, _, hl, _, _, htr⟩ := keepEvents_cases hk
    have hh : held.log = doc.log := by rw [Meta.log, Meta.log, he]
    rw [hh] at hs hl htr
    refine ⟨start, ?_⟩
    constructor
    case le   => exact hs ▸ retained_le _ _ _ _ _
    case kept => rw [Meta.log, hl, Option.getD_some]
    case absent =>
      intro hn
      rw [hl] at hn
      cases hn
    case same    => exact fun h0 => by rw [htr, if_pos h0, ht]
    case trimmed => exact fun hlt h0 => by rw [htr, if_neg h0, List.getElem?_eq_getElem hlt, Option.map_some]
  case inr h =>
    obtain ⟨hc, _, he, ht⟩ := h
    refine ⟨0, ?_⟩
    constructor
    case le      => exact Nat.zero_le _
    case kept    => rw [events_eq_nil hc, List.append_nil, List.drop_zero, Meta.log, he, Meta.log]
    case absent  => exact fun _ => rfl
    case same    => exact fun _ => ht
    case trimmed => exact fun _ h0 => absurd rfl h0

variable {start : ℕ}

theorem Drops.lost_eq {events : List Event} (h : Drops doc after (doc.log ++ events) start) :
    lost doc after events = (doc.log ++ events).take start := by
  have hle := h.le
  have hs : (doc.log ++ events).length - ((doc.log ++ events).length - start) = start := by omega
  rw [lost, h.kept, List.length_drop, hs]

end Apply

section Runs

variable {δ : Type} {rows rows' : Rows δ}

-- The rows store a log.
def Holds (rows : Rows δ) (log : List Event) : Prop :=
  ∃ l, Listing rows l ∧ l.map (fun x => x.2.value) = log

theorem Holds.readEvents_eq {log : List Event} (h : Holds rows log) : readEvents rows = log := by
  obtain ⟨_, hl, hv⟩ := h
  rw [hl.readEvents_eq, hv]

theorem holds_empty : Holds (∅ : Rows δ) [] :=
  ⟨[], Listing.empty, rfl⟩

variable [DecidableEq δ] {core : Core} {sha256 : Event → δ} {doc after : Meta} {m : Mutation} {created : Bool}

theorem Holds.writeEvents {log events : List Event} (h : Holds rows log)
    (hw : writeEvents sha256 rows events = some rows') : Holds rows' events := by
  obtain ⟨_, hl, _⟩ := h
  exact ⟨_, hl.writeEvents hw, values_desired⟩

theorem Holds.trimEvents {log : List Event} (h : Holds rows log) (kept : ℕ) :
    Holds (trimEvents rows kept) (log.drop (log.length - kept)) := by
  obtain ⟨l, hl, rfl⟩ := h
  refine ⟨_, hl.trimEvents kept, ?_⟩
  rw [List.map_drop, List.length_map]

theorem Holds.appendEvents {log events : List Event} (h : Holds rows log) (hn : events ≠ [])
    (hr : ∀ event ∈ events, event.rev ≠ none) (kept : ℕ) : ∃ rows', appendEvents rows events kept = some rows' ∧
      Holds rows' ((log ++ events).drop ((log ++ events).length - kept)) := by
  obtain ⟨l, hl, rfl⟩ := h
  obtain ⟨rows', l', ha, hl', rfl⟩ := hl.appendFrom (fun _ hx => hl.lt_start hx) hr
  refine ⟨_, ?_, Holds.trimEvents ⟨_, hl', List.map_append⟩ kept⟩
  rw [EventLog.appendEvents, List.isEmpty_eq_false_iff.mpr hn, if_neg Bool.false_ne_true, ha, Option.map_some]

-- Appending to the rows and trimming them by count does what the mutation did to the log.
theorem Holds.write (h : Holds rows doc.log) (ha : m.apply core created doc = some after) :
    ∃ rows', write rows after (m.events doc) = some rows' ∧ Holds rows' after.log := by
  obtain ⟨start, hd⟩ := apply_drops ha
  have hle := hd.le
  have hs : (doc.log ++ m.events doc).length - after.log.length = start := by
    rw [hd.kept, List.length_drop]
    omega
  by_cases hn : m.events doc = []
  case pos =>
    rw [hn, List.append_nil] at hs hd
    rw [EventLog.write, hn, EventLog.appendEvents]
    cases he : after.events
    case none =>
      refine ⟨rows, rfl, ?_⟩
      rw [hd.kept, hd.absent he, List.drop_zero]
      exact h
    case some held =>
      refine ⟨_, rfl, ?_⟩
      have ht := h.trimEvents after.log.length
      rwa [hs, ← hd.kept] at ht
  case neg =>
    have hr : ∀ event ∈ m.events doc, event.rev ≠ none := fun event he => by simp [rev_of_mem_events he]
    obtain ⟨rows', hw, hh⟩ := h.appendEvents hn hr after.log.length
    rw [hs, ← hd.kept] at hh
    refine ⟨rows', ?_, hh⟩
    rw [EventLog.write, hw, List.isEmpty_eq_false_iff.mpr hn]
    rfl

theorem Holds.store {writer : Writer} (h : Holds rows doc.log) (ha : m.apply core created doc = some after)
    (hs : store sha256 writer rows after (m.events doc) = some rows') : Holds rows' after.log := by
  cases writer
  case append =>
    obtain ⟨_, hw, hh⟩ := h.write ha
    cases hw.symm.trans hs
    exact hh
  case rewrite => exact h.writeEvents hs

variable {ledger : Option (Stored δ)} {stored : Stored δ} {x : Step} {steps : List Step}

-- A step that succeeds stores the ledger after a mutation, by either writer, or a ledger as a whole: one that a
-- mutation creates, or one that is given.
theorem attempt_cases (h : attempt core sha256 ledger x = some stored) :
    (∃ m writer before, x = .apply m writer ∧ ledger = some before ∧ m.apply core false before.doc = some stored.doc ∧
      store sha256 writer before.rows stored.doc (m.events before.doc) = some stored.rows ∧
      stored.dropped = before.dropped ++ lost before.doc stored.doc (m.events before.doc)) ∨
    (∃ doc m, x = .create doc m ∧ m.apply core true doc = some stored.doc ∧
      writeEvents sha256 ∅ stored.doc.log = some stored.rows ∧ stored.dropped = lost doc stored.doc (m.events doc)) ∨
    ∃ doc, x = .insert doc ∧ stored.doc = doc ∧ writeEvents sha256 ∅ doc.log = some stored.rows ∧
      stored.dropped = [] := by
  cases x
  case apply m writer =>
    simp only [attempt, Option.bind_eq_bind, Option.bind_eq_some_iff] at h
    obtain ⟨before, hb, doc, hd, rows, hr, he⟩ := h
    cases he
    exact .inl ⟨m, writer, before, rfl, hb, hd, hr, rfl⟩
  case create doc m =>
    simp only [attempt, Option.bind_eq_bind, Option.bind_eq_some_iff] at h
    obtain ⟨after, hd, rows, hr, he⟩ := h
    cases he
    exact .inr (.inl ⟨doc, m, rfl, hd, hr, rfl⟩)
  case insert doc =>
    simp only [attempt, Option.bind_eq_bind, Option.bind_eq_some_iff] at h
    obtain ⟨rows, hr, he⟩ := h
    cases he
    exact .inr (.inr ⟨doc, rfl, rfl, hr, rfl⟩)

-- What every step keeps, of those allowed, holds of whatever is stored.
theorem run_induction {P : Stored δ → Prop} {Q : Step → Prop} (hs : ∀ ledger x stored, Q x →
      (∀ before, ledger = some before → P before) → attempt core sha256 ledger x = some stored → P stored)
    (hq : ∀ x ∈ steps, Q x) (h : run core sha256 steps = some stored) : P stored := by
  suffices hr : ∀ ledger, (∀ before, ledger = some before → P before) →
      ∀ before, steps.foldl (step core sha256) ledger = some before → P before from
    hr none (by simp) stored h
  clear h
  induction steps
  case nil => exact fun _ hl => hl
  case cons x steps hi =>
    intro ledger hl
    refine hi (fun y hy => hq y (List.mem_cons_of_mem _ hy)) _ fun before hb => ?_
    rw [step] at hb
    cases ha : attempt core sha256 ledger x
    case none =>
      rw [ha] at hb
      exact hl before hb
    case some next =>
      rw [ha] at hb
      cases hb
      exact hs ledger x _ (hq x List.mem_cons_self) hl ha

theorem run_holds (h : run core sha256 steps = some stored) : Holds stored.rows stored.doc.log := by
  refine run_induction (P := fun stored => Holds stored.rows stored.doc.log) (Q := fun _ => True)
    (fun ledger x stored _ hl ha => ?_) (fun _ _ => trivial) h
  obtain ⟨m, writer, before, _, hb, hd, hr, _⟩ | ⟨doc, m, _, hd, hr, _⟩ | ⟨doc, _, hd, hr, _⟩ := attempt_cases ha
  · exact (hl before hb).store hd hr
  · exact holds_empty.writeEvents hr
  · exact hd ▸ holds_empty.writeEvents hr

-- A ledger whose events have revisions is stored, and whatever a mutation does to one with a log is stored too.
theorem run_insert (core : Core) (sha256 : Event → δ) (doc : Meta) (h : ∀ event ∈ doc.log, event.rev ≠ none) :
    ∃ rows, run core sha256 [.insert doc] = some ⟨doc, rows, []⟩ := by
  obtain ⟨rows, hr⟩ := writeEvents_empty sha256 h
  refine ⟨rows, ?_⟩
  simp [run, step, attempt, hr]

theorem apply_isSome (core : Core) (m : Mutation) (created : Bool) (h : doc.events ≠ none) : ∃ after, m.apply core created doc = some after := by
  obtain ⟨held, hh⟩ := Option.ne_none_iff_exists'.mp h
  have he := (acknowledged_fields doc m.acks).right.left
  rw [Mutation.apply]
  split_ifs
  case pos => exact ⟨_, by rw [keepEvents, he, hh, Option.map_some]⟩
  case neg => exact ⟨_, rfl⟩

theorem run_append (h : run core sha256 steps = some stored) (ha : m.apply core false stored.doc = some after) :
    ∃ rows, run core sha256 (steps ++ [.apply m .append]) =
      some ⟨after, rows, stored.dropped ++ lost stored.doc after (m.events stored.doc)⟩ := by
  obtain ⟨rows, hw, _⟩ := (run_holds h).write ha
  refine ⟨rows, ?_⟩
  rw [run, List.foldl_append, ← run, h]
  simp [step, attempt, ha, EventLog.store, hw]

end Runs

section Marks

variable {δ : Type} [DecidableEq δ] {core : Core} {sha256 : Event → δ} {doc after : Meta} {m : Mutation}
  {created : Bool} {stored : Stored δ} {steps : List Step}

-- The revisions of a log ascend up to the one of its ledger.
structure Ascending (rev : ℤ) (events : List Event) : Prop where
  sorted : events.Pairwise fun x y => x.rev.getD 0 ≤ y.rev.getD 0
  le     : ∀ event ∈ events, event.rev.getD 0 ≤ rev

-- Every dropped event is at or below the mark.
structure Marked (doc : Meta) (dropped : List Event) : Prop where
  ascending : Ascending doc.rev (dropped ++ doc.log)
  trimmed   : ∀ event ∈ dropped, ∃ revision, doc.trimmed = some revision ∧ event.rev.getD 0 ≤ revision

theorem Ascending.append {events : List Event} (h : Ascending doc.rev events)
    (ha : m.apply core created doc = some after) : Ascending after.rev (events ++ m.events doc) := by
  have hr : after.rev = doc.rev + 1 ∨ after.rev = doc.rev ∧ m.events doc = [] := by
    cases apply_cases ha
    case inl hc =>
      obtain ⟨_, held, hr, _, _, hk⟩ := hc
      obtain ⟨_, _, _, _, hk, _⟩ := keepEvents_cases hk
      exact .inl (hk.trans hr)
    case inr hc => exact .inr ⟨hc.right.left, events_eq_nil hc.left⟩
  cases hr
  case inr hr =>
    rw [hr.left, hr.right, List.append_nil]
    exact h
  case inl hr =>
    have he : ∀ event ∈ m.events doc, event.rev.getD 0 = after.rev := by
      intro event hm
      rw [rev_of_mem_events hm, Option.getD_some, hr]
    constructor
    case sorted =>
      refine List.pairwise_append.mpr ⟨h.sorted, ?_, fun x hx y hy => ?_⟩
      · exact List.pairwise_of_forall_mem_list fun x hx y hy => by rw [he x hx, he y hy]
      · have hle := h.le x hx
        rw [he y hy]
        omega
    case le =>
      intro event hm
      rw [List.mem_append] at hm
      cases hm
      case inl hm =>
        have hle := h.le event hm
        omega
      case inr hm => exact (he event hm).le

theorem Marked.apply {dropped : List Event} (h : Marked doc dropped) (ha : m.apply core created doc = some after) :
    Marked after (dropped ++ lost doc after (m.events doc)) := by
  obtain ⟨start, hd⟩ := apply_drops ha
  have hs : dropped ++ lost doc after (m.events doc) ++ after.log = dropped ++ doc.log ++ m.events doc := by
    rw [hd.lost_eq, hd.kept, List.append_assoc, List.take_append_drop, List.append_assoc]
  have hasc : Ascending after.rev (dropped ++ doc.log ++ m.events doc) := h.ascending.append ha
  constructor
  case ascending => exact hs ▸ hasc
  case trimmed =>
    intro event he
    rw [hd.lost_eq] at he
    by_cases h0 : start = 0
    case pos =>
      rw [h0, List.take_zero, List.append_nil] at he
      rw [hd.same h0]
      exact h.trimmed event he
    case neg =>
      have hle := hd.le
      have hlt : start - 1 < (doc.log ++ m.events doc).length := by omega
      refine ⟨_, hd.trimmed hlt h0, ?_⟩
      have hp := hasc.sorted
      rw [List.append_assoc, List.pairwise_append] at hp
      rw [List.mem_append] at he
      cases he
      case inl he => exact hp.right.right event he _ (List.getElem_mem hlt)
      case inr he =>
        obtain ⟨j, hj, rfl⟩ := List.mem_iff_getElem.mp he
        rw [List.length_take] at hj
        rw [List.getElem_take]
        by_cases hjs : j = start - 1
        case pos =>
          subst hjs
          exact le_rfl
        case neg => exact List.pairwise_iff_getElem.mp hp.right.left j (start - 1) (by omega) hlt (by omega)

-- The documents that are stored as a whole.
def Step.whole : Step → Option Meta
  | .create doc _ => some doc
  | .insert doc   => some doc
  | .apply _ _    => none

theorem run_marked (hw : ∀ x ∈ steps, ∀ doc, x.whole = some doc → Ascending doc.rev doc.log)
    (h : run core sha256 steps = some stored) : Marked stored.doc stored.dropped := by
  refine run_induction (P := fun stored => Marked stored.doc stored.dropped) (fun ledger x stored hx hl ha => ?_) hw h
  obtain ⟨m, writer, before, _, hb, hd, _, he⟩ | ⟨doc, m, hs, hd, _, he⟩ | ⟨doc, hs, hd, _, he⟩ := attempt_cases ha
  · exact he ▸ (hl before hb).apply hd
  · have hm : Marked doc [] := ⟨hx doc (by rw [hs, Step.whole]), by simp⟩
    exact he ▸ hm.apply hd
  · exact hd ▸ he ▸ ⟨hx doc (by rw [hs, Step.whole]), by simp⟩

theorem Retains.length_le {log : List Event} {time : ℤ} (h : Retains core time log doc) :
    min core.eventsKept log.length ≤ doc.log.length := by
  by_contra hlt
  have hn : log.drop (log.length - min core.eventsKept log.length) ≠ [] := by
    rw [Ne, List.drop_eq_nil_iff]
    omega
  obtain ⟨event, newer, he⟩ := List.exists_cons_of_ne_nil hn
  have hl := congrArg List.length he
  rw [List.length_drop, List.length_cons] at hl
  have hs := (h.newest event newer (he ▸ List.drop_suffix _ _) (by omega)).length_le
  rw [List.length_cons] at hs
  omega

-- The log stays within the ceiling as long as the documents stored as they are do, and it is long enough once it has
-- lost anything.
theorem run_ceiling (hw : ∀ doc, .insert doc ∈ steps → doc.log.length ≤ core.eventsCeiling)
    (h : run core sha256 steps = some stored) : stored.doc.log.length ≤ core.eventsCeiling := by
  refine run_induction (P := fun stored => stored.doc.log.length ≤ core.eventsCeiling)
    (Q := fun x => ∀ doc, x = .insert doc → doc.log.length ≤ core.eventsCeiling) (fun ledger x stored hx hl ha => ?_)
    (fun x hm doc he => hw doc (he ▸ hm)) h
  obtain ⟨m, writer, before, _, hb, hd, _⟩ | ⟨doc, m, _, hd, _⟩ | ⟨doc, hs, hd, _⟩ := attempt_cases ha
  · obtain ⟨hc, _⟩ | ⟨_, _, he, _⟩ := apply_cases hd
    · exact (apply_retains hd hc).ceiling
    · have hlog : stored.doc.log = before.doc.log := by rw [Meta.log, Meta.log, he]
      exact hlog ▸ hl before hb
  · exact (apply_retains hd (Bool.or_true _)).ceiling
  · exact hd ▸ hx doc hs

theorem run_newest (h : run core sha256 steps = some stored) (hd : stored.dropped ≠ []) :
    core.eventsKept ≤ stored.doc.log.length := by
  have hk {doc after : Meta} {m : Mutation} {created : Bool} (dropped : List Event)
      (ha : m.apply core created doc = some after) (hi : dropped ≠ [] → core.eventsKept ≤ doc.log.length)
      (hn : dropped ++ lost doc after (m.events doc) ≠ []) : core.eventsKept ≤ after.log.length := by
    obtain ⟨hc, _⟩ | ⟨hc, _, he, _⟩ := apply_cases ha
    · have hle := (apply_retains ha hc).length_le
      by_cases hd : dropped = []
      · rw [hd, List.nil_append, lost, Ne, List.take_eq_nil_iff] at hn
        omega
      · have hlog := hi hd
        rw [List.length_append] at hle
        omega
    · have hlog : after.log = doc.log := by rw [Meta.log, Meta.log, he]
      rw [events_eq_nil hc, lost, hlog, List.append_nil, Nat.sub_self, List.take_zero, List.append_nil] at hn
      exact hlog ▸ hi hn
  refine run_induction (P := fun stored => stored.dropped ≠ [] → core.eventsKept ≤ stored.doc.log.length)
    (Q := fun _ => True) (fun ledger x stored _ hl ha hn => ?_) (fun _ _ => trivial) h hd
  obtain ⟨m, writer, before, _, hb, hd, _, he⟩ | ⟨doc, m, _, hd, _, he⟩ | ⟨doc, _, _, _, he⟩ := attempt_cases ha
  · exact hk before.dropped hd (hl before hb) (he ▸ hn)
  · exact hk [] hd (fun hn => absurd rfl hn) (he ▸ hn)
  · exact absurd he hn

-- The stored events are the log. Every mutation keeps the newest events and, up to the ceiling, those after the
-- acknowledgement and those within the window, and the mark is at or above every event it ever dropped.
theorem stored_events_eq_log (core : Core) (sha256 : Event → δ) (steps : List Step) (stored : Stored δ)
    (h : run core sha256 steps = some stored) :
    readEvents stored.rows = stored.doc.log ∧
    (∀ m writer next, attempt core sha256 (some stored) (.apply m writer) = some next → m.changed = true →
      Retains core m.time (stored.doc.log ++ m.events stored.doc) next.doc) ∧
    (∀ doc m next, attempt core sha256 (some stored) (.create doc m) = some next →
      Retains core m.time (doc.log ++ m.events doc) next.doc) ∧
    (stored.dropped ≠ [] → core.eventsKept ≤ stored.doc.log.length) ∧
    ((∀ doc, .insert doc ∈ steps → doc.log.length ≤ core.eventsCeiling) →
      stored.doc.log.length ≤ core.eventsCeiling) ∧
    ((∀ x ∈ steps, ∀ doc, x.whole = some doc → Ascending doc.rev doc.log) → ∀ event ∈ stored.dropped,
      ∃ revision, stored.doc.trimmed = some revision ∧ event.rev.getD 0 ≤ revision) := by
  refine ⟨(run_holds h).readEvents_eq, fun m writer next ha hc => ?_, fun doc m next ha => ?_, run_newest h,
    fun hw => run_ceiling hw h, fun hw => (run_marked hw h).trimmed⟩
  · obtain ⟨_, _, before, hx, hb, hd, _⟩ | ⟨_, _, hx, _⟩ | ⟨_, hx, _⟩ := attempt_cases ha
    · cases hx
      cases hb
      exact apply_retains hd (by rw [hc, Bool.true_or])
    · cases hx
    · cases hx
  · obtain ⟨_, _, _, hx, _⟩ | ⟨_, _, hx, hd, _⟩ | ⟨_, hx, _⟩ := attempt_cases ha
    · cases hx
    · cases hx
      exact apply_retains hd (Bool.or_true _)
    · cases hx

-- A ledger is created with an event, written anew with another one and appended to.
def threeEvents : List Step :=
  [.create ⟨0, some [], none, none⟩ ⟨0, [], ["created"], false⟩, .apply ⟨1, [], ["noted"], false⟩ .rewrite,
    .apply ⟨2, [1], ["noted"], false⟩ .append]

end Marks

theorem stored_events_eq_log_three : ∃ stored, run core (fun event => event.others) threeEvents = some stored ∧
    readEvents stored.rows = stored.doc.log := by
  have hs : (run core (fun event => event.others) threeEvents).isSome = true := by decide +kernel
  obtain ⟨stored, h⟩ := Option.isSome_iff_exists.mp hs
  exact ⟨stored, h, (stored_events_eq_log core _ threeEvents stored h).left⟩

-- More events than the ceiling, all of them after the acknowledgement.
def unacknowledged : Mutation :=
  ⟨0, [], List.replicate 10001 "noted", false⟩

def acknowledged : Meta :=
  ⟨1, some [], some 1, none⟩

-- A document whose log is longer than the ceiling is imported as it is.
def long : Meta :=
  ⟨1, some (List.replicate 10001 ⟨some 1, none, "noted"⟩), none, none⟩

-- A document whose log descends, and as many newer events as are always kept.
def descending : Meta :=
  ⟨5, some [⟨some 5, none, "newer"⟩, ⟨some 1, none, "older"⟩], none, none⟩

def later : Mutation :=
  ⟨1000000000, [], List.replicate 2000 "noted", false⟩

theorem events_cut_by_ceiling :
    (∃ stored, run core (fun event => event.others) [.insert acknowledged, .apply unacknowledged .append] = some stored ∧
      ∃ event ∈ stored.dropped, ∃ revision, stored.doc.ack = some revision ∧ revision < event.rev.getD 0) ∧
    (∃ stored, run core (fun event => event.others) [.insert long] = some stored ∧
      core.eventsCeiling < stored.doc.log.length) ∧
    ∃ stored, run core (fun event => event.others) [.insert descending, .apply later .append] = some stored ∧
      stored.doc.trimmed = some 1 ∧ ∃ event ∈ stored.dropped, 1 < event.rev.getD 0 := by
  refine ⟨?_, ?_, ?_⟩
  · have ha : unacknowledged.apply core false acknowledged =
        keepEvents core ⟨2, some [], some 1, none⟩ (unacknowledged.events acknowledged) 0 := rfl
    have he : acknowledged.events ≠ none := by simp [acknowledged]
    obtain ⟨after, hk⟩ := apply_isSome core unacknowledged false he
    obtain ⟨_, hr⟩ := run_insert core (fun event => event.others) acknowledged (by simp [acknowledged, Meta.log])
    obtain ⟨_, hr⟩ := run_append hr hk
    obtain ⟨_, _, _, _, _, hack, _⟩ := keepEvents_cases (ha.symm.trans hk)
    have hc := (apply_retains hk rfl).ceiling
    have hl : (unacknowledged.events acknowledged).length = 10001 :=
      (List.length_map _).trans List.length_replicate
    have hn : lost acknowledged after (unacknowledged.events acknowledged) ≠ [] := by
      rw [lost, Ne, List.take_eq_nil_iff, List.length_append, ← List.length_eq_zero_iff, List.length_append, hl]
      have hce : core.eventsCeiling = 10000 := rfl
      omega
    obtain ⟨event, he⟩ := List.exists_mem_of_ne_nil _ hn
    refine ⟨_, hr, event, List.mem_append_right _ he, 1, hack, ?_⟩
    have hm : event ∈ unacknowledged.events acknowledged := List.take_subset _ _ he
    rw [rev_of_mem_events hm]
    decide
  · have hlog : long.log = List.replicate 10001 ⟨some 1, none, "noted"⟩ := by rw [Meta.log, long, Option.getD_some]
    have hv : ∀ event ∈ long.log, event.rev ≠ none := by
      intro event he
      rw [hlog] at he
      have hr : event = ⟨some 1, none, "noted"⟩ := List.eq_of_mem_replicate he
      simp [hr]
    obtain ⟨_, hr⟩ := run_insert core (fun event => event.others) long hv
    refine ⟨_, hr, ?_⟩
    rw [hlog, List.length_replicate]
    decide
  · have hs (l : List Event) (hl : l.length = 2000) : retained (⟨some 5, none, "newer"⟩ :: ⟨some 1, none, "older"⟩ :: l)
        none 2000 10000 (1000000000 - 24 * 60 * 60 * 1000) = 2 := by
      simp [retained, hl, List.findIdx?_cons]
    have hlog : descending.log ++ later.events descending =
        ⟨some 5, none, "newer"⟩ :: ⟨some 1, none, "older"⟩ :: later.events descending := rfl
    have hlen : (later.events descending).length = 2000 := (List.length_map _).trans List.length_replicate
    have ha : later.apply core false descending =
        keepEvents core ⟨6, descending.events, none, none⟩ (later.events descending) 1000000000 := rfl
    have he : descending.events ≠ none := by simp [descending]
    obtain ⟨after, hk⟩ := apply_isSome core later false he
    obtain ⟨_, hr⟩ := run_insert core (fun event => event.others) descending (by simp [descending, Meta.log])
    obtain ⟨_, hr⟩ := run_append hr hk
    obtain ⟨start, h2, _, hl, _, _, ht⟩ := keepEvents_cases (ha.symm.trans hk)
    have he : start = 2 := h2.trans (hs _ hlen)
    subst he
    have hdrop : after.log = later.events descending := by rw [Meta.log, hl, Option.getD_some]; exact congrArg _ hlog
    refine ⟨_, hr, ht, ⟨some 5, none, "newer"⟩, ?_, by decide⟩
    rw [lost, hdrop, hlog, List.length_cons, List.length_cons, hlen]
    exact List.mem_cons_self

end Ledger.EventLog
