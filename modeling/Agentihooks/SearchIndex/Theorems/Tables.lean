import Agentihooks.SearchIndex.Tables

-- What each transaction does to the tables, and under which condition.

namespace SearchIndex.Tables

variable {t t' : Tables} {uid version generation index : String} {event : Event} {now revision : ℕ}

theorem put_self {V : Type} {f : String → String → V} {value : V} : put f uid generation value uid generation = value := by
  simp [put]

theorem put_of_ne {V : Type} {f : String → String → V} {value : V} {s g : String} (h : ¬ (s = uid ∧ g = generation)) :
    put f uid generation value s g = f s g :=
  if_neg h

section Catalog

-- What `register` does to the sessions.
theorem register_cases {source : SessionSource} (h : t.register source = some t') :
    ∃ sessions sources, t' = { t with sessions := sessions, sources := sources } ∧
      ∀ uid, sessions.lookup uid = t.sessions.lookup uid ∨
        t.sessions.lookup uid = none ∧ ∃ session, sessions.lookup uid = some session ∧ session.state = .retained := by
  simp only [register] at h
  split at h
  case isTrue => cases h
  split at h
  case isTrue => cases h
  have hsessions (uid : String) (sessions : Dict String Session)
      (hs : sessions = if t.sessions.lookup source.session = none
        then t.sessions.insert source.session ⟨source.provider, source.retention, .retained, 1⟩ else t.sessions) :
      sessions.lookup uid = t.sessions.lookup uid ∨
      t.sessions.lookup uid = none ∧ ∃ session, sessions.lookup uid = some session ∧ session.state = .retained := by
    subst hs
    split
    case isFalse   => exact .inl rfl
    case isTrue hn =>
      by_cases hu : uid = source.session
      case pos =>
        subst hu
        exact .inr ⟨hn, _, Finmap.lookup_insert _, rfl⟩
      case neg => exact .inl (Finmap.lookup_insert_of_ne _ hu)
  split at h
  case h_1 =>
    split at h
    case isFalse => cases h
    case isTrue  =>
      cases h
      exact ⟨_, t.sources, rfl, fun uid => hsessions uid _ rfl⟩
  case h_2 =>
    cases h
    exact ⟨_, _, rfl, fun uid => hsessions uid _ rfl⟩

-- An event that a source has already is passed over, and another one goes in its place.
theorem insertEvent_cases (h : t.insertEvent uid generation event = some t') :
    (t' = t ∧ ∃ held ∈ t.events uid generation, held.sequence = event.sequence) ∨
    (∀ held ∈ t.events uid generation, held.sequence ≠ event.sequence) ∧
      t' = { t with
        events   := put t.events uid generation ((t.events uid generation).orderedInsert (fun a b => a.sequence ≤ b.sequence) event)
        eventIds := insert event.eventId t.eventIds } := by
  simp only [insertEvent] at h
  split at h
  case h_1 held hf =>
    split at h
    case isFalse => cases h
    case isTrue  =>
      cases h
      exact .inl ⟨rfl, held, List.mem_of_find?_eq_some hf, by simpa using List.find?_some hf⟩
  case h_2 hf =>
    split at h
    case isTrue => cases h
    split at h
    case isTrue => cases h
    cases h
    exact .inr ⟨by simpa using hf, rfl⟩

theorem insertQuarantine_cases {item : Rejection} (h : t.insertQuarantine uid generation item = some t') :
    ∃ quarantined, t' = { t with quarantined := quarantined } := by
  simp only [insertQuarantine] at h
  split at h
  case isTrue => cases h
  split at h
  case h_1 =>
    split at h
    case isTrue  => cases h; exact ⟨_, rfl⟩
    case isFalse => cases h
  case h_2 => cases h; exact ⟨_, rfl⟩

theorem insertQuarantines_cases {items : List Rejection} (h : t.insertQuarantines uid generation items = some t') :
    ∃ quarantined, t' = { t with quarantined := quarantined } := by
  induction items generalizing t with
  | nil             =>
    cases h
    exact ⟨_, rfl⟩
  | cons item rest ih =>
    obtain ⟨u, hu, hrest⟩ := Option.bind_eq_some_iff.mp h
    obtain ⟨_, rfl⟩ := insertQuarantine_cases hu
    obtain ⟨_, rfl⟩ := ih hrest
    exact ⟨_, rfl⟩

-- What every inserted event preserves, a batch does.
theorem insertEvents_invariant {I : Tables → Prop} {events : List Event}
    (hi : ∀ event ∈ events, ∀ t t', I t → t.insertEvent uid generation event = some t' → I t')
    (ht : I t) (h : t.insertEvents uid generation events = some t') : I t' := by
  induction events generalizing t with
  | nil               => cases h; exact ht
  | cons event rest ih =>
    obtain ⟨u, hu, hrest⟩ := Option.bind_eq_some_iff.mp h
    exact ih (fun e he => hi e (List.mem_cons_of_mem _ he)) (hi event List.mem_cons_self t u ht hu) hrest

theorem ingest_invariant {I : Tables → Prop} {events : List Event} {rejected : List Rejection}
    (hi : ∀ event ∈ events, ∀ t t', I t → t.insertEvent uid generation event = some t' → I t')
    (hq : ∀ t quarantined, I t → I { t with quarantined := quarantined })
    (ht : I t) (h : t.ingest uid generation events rejected = some t') : I t' := by
  simp only [ingest] at h
  split at h
  case isTrue => cases h
  obtain ⟨u, hu, hrest⟩ := Option.bind_eq_some_iff.mp h
  obtain ⟨_, rfl⟩ := insertQuarantines_cases hrest
  exact hq u _ (insertEvents_invariant hi ht hu)

theorem setState_cases {state : SessionState} (h : t.setState uid state revision now = some t') :
    ∃ session : Session, t' = { t with
      sessions   := t.sessions.insert uid { session with state := state, revision := revision + 1 }
      tombstones := t.tombstones ++ [⟨uid, state, revision + 1, now⟩] } := by
  simp only [setState] at h
  split at h
  case h_1 => cases h
  case h_2 session _ =>
    split at h
    case isTrue  => cases h
    case isFalse => cases h; exact ⟨session, rfl⟩

end Catalog

section ChunkIndex

theorem lookup_stored {id : ChunkId} :
    (t.stored uid version).lookup id = if id.session = uid ∧ id.version = version then t.chunks.lookup id else none := by
  simp [stored]

variable {policy : Policy} {fresh : Dict ChunkId Chunk} {through : Dict String ℕ} {readings : Readings}

-- What a build that is not refused writes.
def written (t : Tables) (uid : String) (policy : Policy) (fresh : Dict ChunkId Chunk) (through : Dict String ℕ)
    (readings : Readings) (state : BuildState) : Tables :=
  { t with
    chunks      := fresh.restrict (fun id => id ∉ t.stored uid policy.version) ∪ t.chunks.restrict fun id =>
      id ∉ (t.stored uid policy.version).restrict fun id => id ∉ fresh
    generations := t.generations.insert (uid, policy.version) ⟨policy, state, through, readings⟩ }

theorem write_cases (h : t.write uid policy fresh through readings = .ok t') :
    (∀ g, t.generation uid policy.version = some g → g.policy = policy ∧ ¬ Behind g.through through) ∧
    ¬ Conflicts (t.stored uid policy.version) fresh ∧
    ∃ state, t' = t.written uid policy fresh through readings state ∧
      (state = .validated → ∃ g, t.generation uid policy.version = some g ∧ g.state = .validated ∧
        (fresh.restrict fun id => id ∉ t.stored uid policy.version).keys = ∅ ∧
        ((t.stored uid policy.version).restrict fun id => id ∉ fresh).keys = ∅) := by
  simp only [write] at h
  split at h
  case isTrue => cases h
  case isFalse hp =>
  split at h
  case isTrue => cases h
  case isFalse hb =>
  split at h
  case isTrue => cases h
  case isFalse hc =>
  cases h
  refine ⟨fun g hg => ?_, hc, _, rfl, fun hs => ?_⟩
  · simp only [hg, Option.any_some, decide_eq_true_eq, not_not] at hp hb
    exact ⟨hp, hb⟩
  · split at hs
    case isFalse   => cases hs
    case isTrue hn =>
      cases hg : t.generation uid policy.version with
      | none   => simp [hg] at hs
      | some g => exact ⟨g, rfl, by simpa [hg] using hs, hn⟩

theorem lookup_written {state : BuildState} {id : ChunkId} (hc : ¬ Conflicts (t.stored uid policy.version) fresh)
    (hf : ∀ id, id ∈ fresh → id.session = uid ∧ id.version = policy.version) :
    (t.written uid policy fresh through readings state).chunks.lookup id =
      if id.session = uid ∧ id.version = policy.version then fresh.lookup id else t.chunks.lookup id := by
  have hstored : (t.stored uid policy.version).lookup id = _ := lookup_stored
  simp only [written, Finmap.lookup_union, Finmap.lookup_restrict]
  by_cases hid : id.session = uid ∧ id.version = policy.version
  case pos =>
    rw [if_pos hid] at hstored
    rw [if_pos hid]
    cases hl : fresh.lookup id with
    | none       =>
      have hn : id ∉ fresh := Finmap.lookup_eq_none.mp hl
      -- What is stored is superseded.
      cases hs : t.chunks.lookup id <;> simp [← Finmap.lookup_isSome, hstored, hs, hl]
    | some chunk =>
      cases hs : t.chunks.lookup id with
      | none      => simp [← Finmap.lookup_isSome, hstored, hs, hl]
      | some held =>
        have heq : held = chunk := by
          by_contra hne
          exact hc ⟨id, chunk, hl, by simp [hstored, hs, hne]⟩
        simp [← Finmap.lookup_isSome, hstored, hs, hl, heq]
  case neg =>
    rw [if_neg hid] at hstored
    rw [if_neg hid]
    have hn : id ∉ fresh := fun hm => hid (hf id hm)
    simp [← Finmap.lookup_isSome, hstored, Finmap.lookup_eq_none.mpr hn]

theorem generation_written {state : BuildState} {s v : String} :
    (t.written uid policy fresh through readings state).generation s v =
      if s = uid ∧ v = policy.version then some ⟨policy, state, through, readings⟩ else t.generation s v := by
  simp [generation, written, Finmap.lookup_insert_ite]

theorem mark_cases (h : t.mark uid version through = some t') :
    ∃ g, t.generation uid version = some g ∧ g.through = through ∧
      t' = { t with generations := t.generations.insert (uid, version) { g with state := .validated } } := by
  simp only [mark] at h
  split at h
  case h_1 => cases h
  case h_2 g hg =>
    split at h
    case isFalse  => cases h
    case isTrue ht => cases h; exact ⟨g, hg, ht, rfl⟩

theorem activate_cases (h : t.activate uid version revision = some t') :
    (t.generation uid version).map Generation.state = some .validated ∧
    t' = { t with cutovers := t.cutovers.insert uid (version, revision + 1) } := by
  simp only [activate] at h
  split at h
  case isTrue => cases h
  case isFalse hs =>
  split at h
  case isTrue => cases h
  cases h
  exact ⟨not_not.mp hs, rfl⟩

end ChunkIndex

section IndexWorker

variable {hashes : Dict ChunkId String} {work : Dict Slot Work} {slot : Slot} {model : EmbeddingModel} {chunk : Chunk}
variable {vector : List ℤ}

theorem lookup_queue : (queue index now hashes work).lookup slot =
    if slot.1 = index then ((hashes.lookup slot.2).map fun hash => ⟨hash, now, 0, none⟩).or (work.lookup slot)
    else work.lookup slot := by
  refine Finmap.lookup_build_of_support fun hs => ?_
  simp only [Finset.mem_union, Finset.mem_image, not_or, not_exists, not_and, Finmap.mem_keys] at hs
  have hw : work.lookup slot = none := Finmap.lookup_eq_none.mpr hs.right
  split
  case isFalse    => exact hw
  case isTrue hi  =>
    have hh : hashes.lookup slot.2 = none := Finmap.lookup_eq_none.mpr fun hm => hs.left slot.2 hm (by simp [← hi])
    simp [hh, hw]

theorem queue_cases {row : Work} (h : (queue index now hashes work).lookup slot = some row) :
    work.lookup slot = some row ∨ slot.1 = index ∧ hashes.lookup slot.2 = some row.contentHash := by
  rw [lookup_queue] at h
  split at h
  case isFalse   => exact .inl h
  case isTrue hi =>
    cases hh : hashes.lookup slot.2 with
    | none      => exact .inl (by simpa [hh] using h)
    | some hash =>
      simp only [hh, Option.map_some, Option.some_or, Option.some.injEq] at h
      exact .inr ⟨hi, by rw [← h]⟩

theorem registerIndex_cases (h : t.registerIndex index model = some t') : ∃ indexes, t' = { t with indexes := indexes } := by
  simp only [registerIndex] at h
  split at h
  case isTrue => cases h
  split at h
  case h_1 => cases h; exact ⟨_, rfl⟩
  case h_2 =>
    split at h
    case isTrue  => cases h; exact ⟨_, rfl⟩
    case isFalse => cases h

theorem setPaused_cases {paused : Bool} (h : t.setPaused index paused = some t') :
    ∃ indexes, t' = { t with indexes := indexes } := by
  obtain ⟨found, -, rfl⟩ := Option.map_eq_some_iff.mp h
  exact ⟨_, rfl⟩

-- The hashes of the target's chunks that are neither embedded nor queued.
def fresh (t : Tables) (target : Target) (vectors : Dict Slot Vector) (queued : Dict Slot Work) : Dict ChunkId String :=
  ((t.stored target.session target.version).select fun id chunk =>
    (vectors.lookup (target.index, id)).map Vector.contentHash ≠ some chunk.contentHash ∧
    (queued.lookup (target.index, id)).map Work.contentHash ≠ some chunk.contentHash).mapValues fun _ chunk => chunk.contentHash

theorem enqueue_cases {grant : Grant} {target : Target} (h : t.enqueue grant target now = some t') :
    t.Readable grant target.session ∧
    ∃ vectors queued,
      vectors = t.vectors.restrict (fun slot => target.Owns slot → slot.2 ∈ t.stored target.session target.version) ∧
      queued = t.work.restrict (fun slot => target.Owns slot → slot.2 ∈ t.stored target.session target.version) ∧
      t' = { t with vectors := vectors, work := queue target.index now (t.fresh target vectors queued) queued } := by
  simp only [enqueue] at h
  split at h
  case isTrue => cases h
  case isFalse hr =>
  split at h
  case isTrue => cases h
  split at h
  case isTrue => cases h
  cases h
  exact ⟨not_not.mp hr, _, _, rfl, rfl, rfl⟩

theorem lookup_fresh {target : Target} {vectors : Dict Slot Vector} {queued : Dict Slot Work} {id : ChunkId} {hash : String} :
    (t.fresh target vectors queued).lookup id = some hash ↔
      ∃ chunk, (t.stored target.session target.version).lookup id = some chunk ∧ chunk.contentHash = hash ∧
        (vectors.lookup (target.index, id)).map Vector.contentHash ≠ some chunk.contentHash ∧
        (queued.lookup (target.index, id)).map Work.contentHash ≠ some chunk.contentHash := by
  simp only [fresh, Finmap.lookup_mapValues, Option.map_eq_some_iff, Finmap.lookup_select_eq_some]
  constructor
  · rintro ⟨chunk, ⟨hs, hv, hw⟩, hh⟩
    exact ⟨chunk, hs, hh, hv, hw⟩
  · rintro ⟨chunk, hs, hh, hv, hw⟩
    exact ⟨chunk, ⟨hs, hv, hw⟩, hh⟩

theorem commitOne_cases (t : Tables) (index : String) (model : EmbeddingModel) (chunk : Chunk) (vector : List ℤ) :
    (t.work.lookup (index, chunk.id)).map Work.contentHash = some chunk.contentHash ∧
      (∃ kept, t.commitOne index model chunk vector = { t with
        work    := t.work.erase (index, chunk.id)
        vectors := t.vectors.insert (index, chunk.id) ⟨chunk.contentHash, kept, vector⟩ }) ∨
    t.commitOne index model chunk vector = t := by
  simp only [commitOne]
  split
  case isTrue h => exact .inl ⟨h, _, rfl⟩
  case isFalse  => exact .inr rfl

theorem commitOne_events (t : Tables) {vector : List ℤ} : (t.commitOne index model chunk vector).events = t.events := by
  obtain ⟨-, _, heq⟩ | heq := commitOne_cases t index model chunk vector
  · rw [heq]
  · rw [heq]

-- What one row of a commit preserves, the commit does.
theorem commit_invariant {I : Tables → Prop} {rows : List (Chunk × List ℤ)}
    (hi : ∀ t, ∀ row ∈ rows, I t → I (t.commitOne index model row.1 row.2)) (ht : I t) : I (t.commit index model rows) := by
  induction rows generalizing t with
  | nil           => exact ht
  | cons row rest ih =>
    exact ih (fun t row hr => hi t row (List.mem_cons_of_mem _ hr)) (hi t row List.mem_cons_self ht)

theorem requeued_cases {rows : Dict Slot Vector} {id : ChunkId} {hash : String}
    (h : (Finmap.build (β := fun _ => String) (rows.keys.image Prod.snd) fun id =>
      if t.Retained id.session then (rows.lookup (index, id)).map Vector.contentHash else none).lookup id = some hash) :
    t.Retained id.session ∧ ∃ vector, rows.lookup (index, id) = some vector ∧ vector.contentHash = hash := by
  rw [Finmap.lookup_build] at h
  split at h
  case isFalse => cases h
  split at h
  case isFalse   => cases h
  case isTrue hr => exact ⟨hr, Option.map_eq_some_iff.mp h⟩

theorem activateIndex_cases (h : t.activateIndex index revision = some t') :
    (∀ slot ∈ t.work.keys, slot.1 ≠ index) ∧ ¬ t.Uncovered index ∧
    t' = { t with indexCutover := some (index, revision + 1) } := by
  simp only [activateIndex] at h
  split at h
  case isTrue => cases h
  split at h
  case isTrue => cases h
  case isFalse hn =>
  split at h
  case isTrue => cases h
  cases h
  obtain ⟨hw, hu⟩ := not_or.mp hn
  exact ⟨fun slot hs hi => hw ⟨slot, hs, hi⟩, hu, rfl⟩

end IndexWorker

section Propagator

theorem consume_events {consumer : Consumer} : (t.consume uid consumer).events = t.events := by
  cases consumer <;> rfl

theorem apply_cases {consumer : Consumer} {sequence : ℕ} (h : t.apply consumer sequence uid = some t') :
    sequence = t.cursors consumer + 1 ∧ ∃ consumed, consumed = (if t.Retained uid then t else t.consume uid consumer) ∧
      t' = { consumed with
        applied := t.applied.insert (consumer, sequence) uid
        cursors := Function.update t.cursors consumer sequence } := by
  simp only [apply] at h
  split at h
  case isTrue => cases h
  case isFalse hs =>
  cases h
  refine ⟨(not_not.mp hs).symm, _, rfl, ?_⟩
  split
  case isTrue  => rfl
  case isFalse => cases consumer <;> rfl

end Propagator

end SearchIndex.Tables
