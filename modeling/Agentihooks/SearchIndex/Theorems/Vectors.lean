import Agentihooks.SearchIndex.Theorems.Chunker
import Agentihooks.SearchIndex.Theorems.Programs
import Agentihooks.SearchIndex.Theorems.Tables

-- Every row about a chunk spells what the events at the chunk's sequences say, and no chunk is lost to the index.

namespace SearchIndex

open Interleaved (Steps Rely Meets)

variable {t t' : Tables} {id : ChunkId} {slot : Slot} {hash hash' uid generation version index : String} {chunk : Chunk}

-- The content hash that a chunk of that id has under its generation's policy.
def Spelled (t : Tables) (id : ChunkId) (hash : String) : Prop :=
  ∃ g made, t.generation id.session id.version = some g ∧ made.map Event.sequence = id.sequences ∧
    (∀ event ∈ made, event ∈ t.events id.session id.generation) ∧ hash = clip g.policy.maxChars (text made)

structure Sound (t : Tables) : Prop where
  events  : ∀ uid generation, (t.events uid generation).Pairwise fun a b => a.sequence < b.sequence
  chunks  : ∀ id chunk, t.chunks.lookup id = some chunk → chunk.id = id ∧ Spelled t id chunk.contentHash
  work    : ∀ slot work, t.work.lookup slot = some work → Spelled t slot.2 work.contentHash
  vectors : ∀ slot vector, t.vectors.lookup slot = some vector → Spelled t slot.2 vector.contentHash

theorem Sound.empty : Sound empty where
  events  := fun _ _ => .nil
  chunks  := by simp [SearchIndex.empty]
  work    := by simp [SearchIndex.empty]
  vectors := by simp [SearchIndex.empty]

section Spelled

theorem Spelled.unique (hs : (t.events id.session id.generation).Pairwise fun a b => a.sequence < b.sequence)
    (h : Spelled t id hash) (h' : Spelled t id hash') : hash = hash' := by
  obtain ⟨g, made, hg, hm, hmem, rfl⟩ := h
  obtain ⟨g', made', hg', hm', hmem', rfl⟩ := h'
  cases hg.symm.trans hg'
  rw [eq_of_sequences hs hmem hmem' (hm.trans hm'.symm)]

theorem Spelled.later (h : Spelled t id hash)
    (he : ∀ event ∈ t.events id.session id.generation, event ∈ t'.events id.session id.generation)
    (hg : ∀ g, t.generation id.session id.version = some g →
      ∃ g', t'.generation id.session id.version = some g' ∧ g'.policy = g.policy) : Spelled t' id hash := by
  obtain ⟨g, made, hgen, hm, hmem, rfl⟩ := h
  obtain ⟨g', hgen', hpolicy⟩ := hg g hgen
  exact ⟨g', made, hgen', hm, fun event hev => he event (hmem event hev), by rw [hpolicy]⟩

-- The rows of the chunk agree.
theorem Sound.agree {vector : Vector} (h : Sound t) (hv : t.vectors.lookup slot = some vector)
    (hc : t.chunks.lookup slot.2 = some chunk) : vector.contentHash = chunk.contentHash :=
  (h.vectors slot vector hv).unique (h.events _ _) (h.chunks slot.2 chunk hc).right

theorem Sound.queued {work : Work} (h : Sound t) (hw : t.work.lookup slot = some work)
    (hc : t.chunks.lookup slot.2 = some chunk) : work.contentHash = chunk.contentHash :=
  (h.work slot work hw).unique (h.events _ _) (h.chunks slot.2 chunk hc).right

end Spelled

section Transactions

-- No event goes.
def Grows (t t' : Tables) : Prop :=
  ∀ uid generation, ∀ event ∈ t.events uid generation, event ∈ t'.events uid generation

theorem Grows.of_eq (h : t'.events = t.events) : Grows t t' :=
  fun _ _ _ hm => by rwa [h]

-- What is spelled stays so where no generation row goes either.
structure Kept (t t' : Tables) : Prop where
  events      : Grows t t'
  generations : ∀ uid version g, t.generation uid version = some g →
    ∃ g', t'.generation uid version = some g' ∧ g'.policy = g.policy

theorem Kept.spelled (h : Kept t t') (hs : Spelled t id hash) : Spelled t' id hash :=
  hs.later (h.events _ _) (h.generations _ _)

theorem Kept.of_eq (he : t'.events = t.events) (hg : t'.generations = t.generations) : Kept t t' where
  events      := .of_eq he
  generations := fun uid version g hl => ⟨g, by rwa [Tables.generation, hg], rfl⟩

-- Rows that are there already or spell what they should.
theorem Sound.of_rows (h : Sound t) (hk : Kept t t')
    (he : ∀ uid generation, (t'.events uid generation).Pairwise fun a b => a.sequence < b.sequence)
    (hc : ∀ id chunk, t'.chunks.lookup id = some chunk →
      t.chunks.lookup id = some chunk ∨ chunk.id = id ∧ Spelled t' id chunk.contentHash)
    (hw : ∀ slot work, t'.work.lookup slot = some work →
      (∃ old, t.work.lookup slot = some old ∧ old.contentHash = work.contentHash) ∨ Spelled t slot.2 work.contentHash)
    (hv : ∀ slot vector, t'.vectors.lookup slot = some vector →
      t.vectors.lookup slot = some vector ∨ Spelled t slot.2 vector.contentHash) : Sound t' where
  events  := he
  chunks  := by
    intro id chunk hl
    obtain hold | hnew := hc id chunk hl
    · exact ⟨(h.chunks id chunk hold).left, hk.spelled (h.chunks id chunk hold).right⟩
    · exact hnew
  work    := by
    intro slot work hl
    obtain ⟨old, hold, heq⟩ | hnew := hw slot work hl
    · exact heq ▸ hk.spelled (h.work slot old hold)
    · exact hk.spelled hnew
  vectors := by
    intro slot vector hl
    obtain hold | hnew := hv slot vector hl
    · exact hk.spelled (h.vectors slot vector hold)
    · exact hk.spelled hnew

-- A transaction on other tables.
theorem Sound.frame (h : Sound t) (he : t'.events = t.events) (hg : t'.generations = t.generations)
    (hc : t'.chunks = t.chunks) (hw : t'.work = t.work) (hv : t'.vectors = t.vectors) : Sound t' :=
  h.of_rows (.of_eq he hg) (by rw [he]; exact h.events) (by rw [hc]; exact fun _ _ => .inl)
    (by rw [hw]; exact fun _ work hl => .inl ⟨work, hl, rfl⟩) (by rw [hv]; exact fun _ _ => .inl)

theorem pairwise_orderedInsert {events : List Event} {event : Event}
    (h : events.Pairwise fun a b => a.sequence < b.sequence) (hn : ∀ held ∈ events, held.sequence ≠ event.sequence) :
    (events.orderedInsert (fun a b => a.sequence ≤ b.sequence) event).Pairwise fun a b => a.sequence < b.sequence := by
  induction events with
  | nil              => exact List.pairwise_singleton _ _
  | cons held rest ih =>
    obtain ⟨hheld, hrest⟩ := List.pairwise_cons.mp h
    have hne := hn held List.mem_cons_self
    rw [List.orderedInsert]
    split
    case isTrue hle  =>
      refine List.pairwise_cons.mpr ⟨fun other ho => ?_, h⟩
      obtain rfl | ho := List.mem_cons.mp ho
      · exact Nat.lt_of_le_of_ne hle hne.symm
      · exact Nat.lt_of_le_of_lt hle (hheld other ho)
    case isFalse hlt =>
      refine List.pairwise_cons.mpr ⟨fun other ho => ?_, ih hrest fun x hx => hn x (List.mem_cons_of_mem _ hx)⟩
      obtain rfl | ho := (List.mem_orderedInsert _).mp ho
      · exact Nat.lt_of_not_le hlt
      · exact hheld other ho

theorem Sound.insertEvent {event : Event} (h : Sound t) (hi : t.insertEvent uid generation event = some t') :
    Sound t' ∧ Kept t t' := by
  obtain ⟨rfl, -⟩ | ⟨hn, rfl⟩ := Tables.insertEvent_cases hi
  · exact ⟨h, .of_eq rfl rfl⟩
  · have hk : Kept t { t with
        events   := put t.events uid generation ((t.events uid generation).orderedInsert (fun a b => a.sequence ≤ b.sequence) event)
        eventIds := insert event.eventId t.eventIds } :=
      { events      := by
          intro s g held hm
          by_cases hsg : s = uid ∧ g = generation
          case pos =>
            obtain ⟨rfl, rfl⟩ := hsg
            simpa [Tables.put_self] using .inr hm
          case neg => simpa only [Tables.put_of_ne hsg] using hm
        generations := fun _ _ g hl => ⟨g, hl, rfl⟩ }
    refine ⟨h.of_rows hk (fun s g => ?_) (fun _ _ => .inl) (fun _ work hl => .inl ⟨work, hl, rfl⟩) (fun _ _ => .inl), hk⟩
    by_cases hsg : s = uid ∧ g = generation
    case pos =>
      obtain ⟨rfl, rfl⟩ := hsg
      simpa only [Tables.put_self] using pairwise_orderedInsert (h.events s g) hn
    case neg => simpa only [Tables.put_of_ne hsg] using h.events s g

theorem Sound.ingest {events : List Event} {rejected : List Rejection} (h : Sound t)
    (hi : t.ingest uid generation events rejected = some t') : Sound t' ∧ Grows t t' := by
  refine Tables.ingest_invariant (I := fun u => Sound u ∧ Grows t u) (fun event _ u u' hu hu' => ?_) (fun u _ hu => ?_)
    ⟨h, .of_eq rfl⟩ hi
  · obtain ⟨hs, hk⟩ := hu.left.insertEvent hu'
    exact ⟨hs, fun s g e he => hk.events s g e (hu.right s g e he)⟩
  · exact ⟨hu.left.frame rfl rfl rfl rfl rfl, hu.right⟩

-- What a build may write: chunks of events that are stored.
def Spells (t : Tables) (uid : String) (policy : Policy) (fresh : Dict ChunkId Chunk) : Prop :=
  ∀ id chunk, fresh.lookup id = some chunk → chunk.id = id ∧ id.session = uid ∧ id.version = policy.version ∧
    ∃ made : List Event, made.map Event.sequence = id.sequences ∧ (∀ event ∈ made, event ∈ t.events uid id.generation) ∧
      chunk.contentHash = clip policy.maxChars (text made)

theorem Sound.write {policy : Policy} {fresh : Dict ChunkId Chunk} {through : Dict String ℕ} {readings : Readings}
    (h : Sound t) (hf : Spells t uid policy fresh) (hw : t.write uid policy fresh through readings = .ok t') : Sound t' := by
  obtain ⟨hfound, hc, state, rfl, -⟩ := Tables.write_cases hw
  have hk : Kept t (t.written uid policy fresh through readings state) :=
    { events      := .of_eq rfl
      generations := by
        intro s v g hl
        rw [Tables.generation_written]
        split
        case isFalse   => exact ⟨g, hl, rfl⟩
        case isTrue hk =>
          obtain ⟨rfl, rfl⟩ := hk
          exact ⟨_, rfl, (hfound g hl).left.symm⟩ }
  refine h.of_rows hk h.events (fun id chunk hl => ?_) (fun _ work hl => .inl ⟨work, hl, rfl⟩) fun _ _ => .inl
  rw [Tables.lookup_written hc fun id hm => ?_] at hl
  · split at hl
    case isFalse   => exact .inl hl
    case isTrue hk =>
      obtain ⟨hid, -, -, made, hm, hmem, hhash⟩ := hf id chunk hl
      refine .inr ⟨hid, ⟨policy, state, through, readings⟩, made, ?_, hm, ?_, hhash⟩
      · rw [Tables.generation_written, if_pos hk]
      · exact fun event he => hk.left ▸ hmem event he
  · obtain ⟨chunk, hm⟩ := Finmap.mem_iff.mp hm
    exact ⟨(hf id chunk hm).right.left, (hf id chunk hm).right.right.left⟩

theorem Sound.mark {through : Dict String ℕ} (h : Sound t) (hm : t.mark uid version through = some t') : Sound t' := by
  obtain ⟨g, hg, -, rfl⟩ := Tables.mark_cases hm
  refine h.of_rows ⟨.of_eq rfl, fun s v found hl => ?_⟩ h.events (fun _ _ => .inl) (fun _ work hl => .inl ⟨work, hl, rfl⟩)
    fun _ _ => .inl
  simp only [Tables.generation, Finmap.lookup_insert_ite]
  split
  case isFalse   => exact ⟨found, hl, rfl⟩
  case isTrue hk =>
    cases hk
    cases hg.symm.trans hl
    exact ⟨_, rfl, rfl⟩

theorem Sound.enqueue {grant : Grant} {target : Target} {now : ℕ} (h : Sound t) (he : t.enqueue grant target now = some t') :
    Sound t' := by
  obtain ⟨-, vectors, queued, rfl, rfl, rfl⟩ := Tables.enqueue_cases he
  refine h.of_rows (.of_eq rfl rfl) h.events (fun _ _ => .inl) (fun slot work hl => ?_) fun slot vector hl => ?_
  · obtain hq | ⟨-, hq⟩ := Tables.queue_cases hl
    · exact .inl ⟨work, (Finmap.lookup_restrict_eq_some.mp hq).right, rfl⟩
    · obtain ⟨chunk, hs, hhash, -⟩ := Tables.lookup_fresh.mp hq
      exact .inr (hhash ▸ (h.chunks slot.2 chunk (Finmap.lookup_restrict_eq_some.mp hs).right).right)
  · exact .inl (Finmap.lookup_restrict_eq_some.mp hl).right

theorem Sound.purge (h : Sound t) : Sound (t.purge index) := by
  refine h.of_rows (.of_eq rfl rfl) h.events (fun _ _ => .inl) (fun slot work hl => ?_) fun _ _ => .inl
  exact .inl ⟨work, (Finmap.lookup_select_eq_some.mp hl).left, rfl⟩

theorem Sound.commitOne {model : EmbeddingModel} {vector : List ℤ} (h : Sound t) :
    Sound (t.commitOne index model chunk vector) := by
  obtain ⟨htaken, kept, heq⟩ | heq := Tables.commitOne_cases t index model chunk vector
  · obtain ⟨work, hw, hhash⟩ := Option.map_eq_some_iff.mp htaken
    rw [heq]
    refine h.of_rows (.of_eq rfl rfl) h.events (fun _ _ => .inl) (fun slot work hl => ?_) fun slot vector hl => ?_
    · exact .inl ⟨work, (Finmap.lookup_erase_eq_some.mp hl).right, rfl⟩
    · by_cases hs : slot = (index, chunk.id)
      case pos =>
        subst hs
        cases (Finmap.lookup_insert _).symm.trans hl
        exact .inr (hhash ▸ h.work _ work hw)
      case neg => exact .inl ((Finmap.lookup_insert_of_ne _ hs).symm.trans hl)
  · rwa [heq]

theorem Sound.commit {model : EmbeddingModel} {rows : List (Chunk × List ℤ)} (h : Sound t) : Sound (t.commit index model rows) :=
  Tables.commit_invariant (fun _ _ _ hu => hu.commitOne) h

theorem Sound.defer {batch : List Chunk} {error : String} (h : Sound t) : Sound (t.defer index batch error) := by
  refine h.of_rows (.of_eq rfl rfl) h.events (fun _ _ => .inl) (fun slot work hl => ?_) fun _ _ => .inl
  simp only [Tables.defer, Finmap.lookup_mapValues] at hl
  obtain ⟨old, hold, rfl⟩ := Option.map_eq_some_iff.mp hl
  refine .inl ⟨old, hold, ?_⟩
  split <;> rfl

theorem Sound.drop {now : ℕ} (h : Sound t) : Sound (t.drop index now) := by
  refine h.of_rows (.of_eq rfl rfl) h.events (fun _ _ => .inl) (fun slot work hl => ?_) fun slot vector hl => ?_
  · obtain hq | ⟨hi, hq⟩ := Tables.queue_cases hl
    · exact .inl ⟨work, hq, rfl⟩
    · obtain ⟨-, vector, hv, hhash⟩ := Tables.requeued_cases hq
      exact .inr (hhash ▸ h.vectors (index, slot.2) vector (Finmap.lookup_select_eq_some.mp hv).left)
  · exact .inl (Finmap.lookup_restrict_eq_some.mp hl).right

theorem Sound.consume {consumer : Consumer} (h : Sound t) : Sound (t.consume uid consumer) := by
  cases consumer with
  | packs   => exact h.frame rfl rfl rfl rfl rfl
  | lessons => exact h.frame rfl rfl rfl rfl rfl
  | search  =>
    -- The rows of other sessions stay, and so do their generation rows.
    have hlater {id : ChunkId} {hash : String} (hs : id.session ≠ uid) (hspelled : Spelled t id hash) :
        Spelled (t.consume uid .search) id hash := by
      refine hspelled.later (fun _ he => he) fun g hg => ⟨g, ?_, rfl⟩
      exact Finmap.lookup_restrict_eq_some.mpr ⟨hs, hg⟩
    refine ⟨h.events, fun id chunk hl => ?_, fun slot work hl => ?_, fun slot vector hl => ?_⟩
    · obtain ⟨hs, hl⟩ := Finmap.lookup_restrict_eq_some.mp hl
      exact ⟨(h.chunks id chunk hl).left, hlater hs (h.chunks id chunk hl).right⟩
    · obtain ⟨hs, hl⟩ := Finmap.lookup_restrict_eq_some.mp hl
      exact hlater hs (h.work slot work hl)
    · obtain ⟨hs, hl⟩ := Finmap.lookup_restrict_eq_some.mp hl
      exact hlater hs (h.vectors slot vector hl)

end Transactions

section System

-- The events that a reader has found stay, and a build writes chunks of events that it has found.
def rely : Rely Tables where
  inv   := Sound
  rel   := Grows
  refl  := fun _ _ _ _ he => he
  trans := fun _ _ _ h h' uid generation event he => h' uid generation event (h uid generation event he)

def Allowed (_ : Call) (t : Tables) : Command → Prop
  | .write uid policy fresh .. => Spells t uid policy fresh
  | _                          => True

theorem Sound.effect {command : Command} {call : Call} (h : Sound t) (ha : Allowed call t command) (he : Effect t command t') :
    Sound t' ∧ Grows t t' := by
  cases he with
  | keep        => exact ⟨h, .of_eq rfl⟩
  | ingest hi   => exact h.ingest hi
  | write hw    =>
    obtain ⟨-, -, _, heq, -⟩ := Tables.write_cases hw
    exact ⟨h.write ha hw, .of_eq (by rw [heq]; rfl)⟩
  | mark hm     =>
    obtain ⟨_, -, -, heq⟩ := Tables.mark_cases hm
    exact ⟨h.mark hm, .of_eq (by rw [heq])⟩
  | enqueue he  =>
    obtain ⟨-, _, _, -, -, heq⟩ := Tables.enqueue_cases he
    exact ⟨h.enqueue he, .of_eq (by rw [heq])⟩
  | purge       => exact ⟨h.purge, .of_eq rfl⟩
  | commit      =>
    exact ⟨h.commit, .of_eq (Tables.commit_invariant (fun u _ _ hu => (Tables.commitOne_events u).trans hu) rfl)⟩
  | defer       => exact ⟨h.defer, .of_eq rfl⟩
  | drop        => exact ⟨h.drop, .of_eq rfl⟩
  | consume     => exact ⟨h.consume.frame rfl rfl rfl rfl rfl, .of_eq Tables.consume_events⟩
  | _           => exact ⟨h.frame rfl rfl rfl rfl rfl, .of_eq rfl⟩

theorem safe_program {domain : String} {call : Call} (h : Sound t) :
    (program domain call).Safe exec rely (Allowed call) (fun _ _ => True) t := by
  cases call with
  | build grant uid parent policy =>
    refine Steps.Safe.map (Q := fun _ _ => True) ?_ fun _ _ _ _ => trivial
    have hread : (readable domain grant uid).Safe exec rely (Allowed (.build grant uid parent policy))
        (fun t readings => True ∧ ∀ reading ∈ readings, ∀ event ∈ reading.2, event ∈ t.events uid reading.1) t :=
      safe_readable (N := fun _ => True) (T := fun t name events => ∀ event ∈ events, event ∈ t.events uid name) h
        (fun _ => ⟨trivial, trivial, fun _ => trivial⟩) (fun _ _ => trivial) (fun _ _ _ _ he => he)
        fun _ _ name _ hl hm event he => hl uid name event (hm event he)
    refine hread.bind h fun readings u hu _ hr => Steps.safe_ensure fun _ => Steps.safe_ask fun u' hu' hl' => ⟨?_, ?_⟩
    · intro id chunk hl
      obtain ⟨hid, reading, hreading, hm⟩ := lookup_chunksOf hl
      obtain ⟨hversion, hsession, hgeneration, made, hmade, hmem, hhash⟩ := spelled_of_mem hm
      rw [hid] at hversion hsession hgeneration hmade
      refine ⟨hid, hsession, hversion, made, hmade, fun event he => hl' _ _ _ ?_, hhash⟩
      exact hgeneration ▸ hr.right reading hreading event (hmem event he)
    · exact fun choice u'' written _ _ _ => Steps.safe_ensure_last fun _ _ _ _ => trivial
  | _ =>
    refine Steps.Safe.of_keeps issued_program (fun u command hc => ?_) fun _ _ _ => trivial
    cases command with
    | write => obtain ⟨_, _, _, _, hcall⟩ := hc; cases hcall
    | _     => trivial

end System

section Queue

-- The chunk waits to be embedded as it is.
def Queued (t : Tables) (index : String) (id : ChunkId) (chunk : Chunk) : Prop :=
  t.chunks.lookup id = some chunk ∧ (t.work.lookup (index, id)).map Work.contentHash = some chunk.contentHash

-- It has been embedded as it is.
def Embedded (t : Tables) (index : String) (id : ChunkId) (chunk : Chunk) : Prop :=
  t.chunks.lookup id = some chunk ∧ t.work.lookup (index, id) = none ∧ t.Current index id chunk

theorem Queued.commitOne {model : EmbeddingModel} {row : Chunk} {vector : List ℤ}
    (h : Queued t index id chunk ∨ Embedded t index id chunk) :
    Queued (t.commitOne index model row vector) index id chunk ∨ Embedded (t.commitOne index model row vector) index id chunk := by
  obtain ⟨htaken, kept, heq⟩ | heq := Tables.commitOne_cases t index model row vector
  · rw [heq]
    by_cases hid : id = row.id
    case neg =>
      have hne : ((index, id) : Slot) ≠ (index, row.id) := fun he => hid (Prod.mk.inj he).right
      simpa only [Queued, Embedded, Tables.Current, Finmap.lookup_erase_ne hne, Finmap.lookup_insert_of_ne _ hne] using h
    case pos =>
      subst hid
      -- It is taken, so it was queued.
      obtain ⟨hc, hw⟩ | ⟨-, hn, -⟩ := h
      · refine .inr ⟨hc, Finmap.lookup_erase _ _, ?_⟩
        rw [Tables.Current, Finmap.lookup_insert]
        exact htaken.symm.trans hw
      · rw [hn] at htaken
        cases htaken
  · rwa [heq]

theorem Queued.enqueue {grant : Grant} {target : Target} {now : ℕ} (h : Queued t index id chunk)
    (he : t.enqueue grant target now = some t') : Queued t' index id chunk := by
  obtain ⟨-, vectors, queued, rfl, rfl, rfl⟩ := Tables.enqueue_cases he
  obtain ⟨hc, hw⟩ := h
  refine ⟨hc, ?_⟩
  have hkept (howns : target.Owns (index, id)) : id ∈ t.stored target.session target.version := by
    refine Finmap.mem_of_lookup_eq_some (b := chunk) ?_
    rw [Tables.lookup_stored, if_pos ⟨howns.right.left, howns.right.right⟩, hc]
  have hwork : (t.work.restrict fun slot => target.Owns slot → slot.2 ∈ t.stored target.session target.version).lookup (index, id) =
      t.work.lookup (index, id) := by rw [Finmap.lookup_restrict, if_pos hkept]
  rw [Tables.lookup_queue, hwork]
  split
  case isFalse   => exact hw
  case isTrue hi =>
    cases hl : (t.fresh target _ _).lookup id with
    | none      => simpa [hl] using hw
    | some hash =>
      -- Its hash is queued already, so it is not a fresh one.
      obtain ⟨other, hs, -, -, hn⟩ := Tables.lookup_fresh.mp hl
      rw [Tables.lookup_stored] at hs
      split at hs
      case isFalse => cases hs
      case isTrue  =>
        cases hs.symm.trans hc
        rw [← hi, hwork] at hn
        exact absurd hw hn

theorem Queued.drop {now : ℕ} (hs : Sound t) (h : Queued t index id chunk) : ∀ name, Queued (t.drop name now) index id chunk := by
  intro name
  obtain ⟨hc, hw⟩ := h
  refine ⟨hc, ?_⟩
  rw [Tables.drop, Tables.lookup_queue]
  split
  case isFalse   => exact hw
  case isTrue hi =>
    obtain rfl : index = name := hi
    cases hl : Finmap.lookup id _ with
    | none      => simpa [hl] using hw
    | some hash =>
      -- The vector that goes is of the chunk's content.
      obtain ⟨-, vector, hv, rfl⟩ := Tables.requeued_cases hl
      have hagree := hs.agree (Finmap.lookup_select_eq_some.mp hv).left hc
      simp [hl, hagree]

-- Queued work goes with its chunk, or for a vector of its content.
theorem Queued.effect {command : Command} (hs : Sound t) (h : Queued t index id chunk) (he : Effect t command t') :
    Queued t' index id chunk ∨ t'.chunks.lookup id ≠ some chunk ∨
      t'.Current index id chunk ∧ ∃ model rows, command = .commit index model rows := by
  cases he with
  | ingest hi                 =>
    have hsame : t'.chunks = t.chunks ∧ t'.work = t.work := by
      refine Tables.ingest_invariant (I := fun u => u.chunks = t.chunks ∧ u.work = t.work) (fun event _ u u' hu hu' => ?_)
        (fun _ _ hu => hu) ⟨rfl, rfl⟩ hi
      obtain ⟨rfl, -⟩ | ⟨-, rfl⟩ := Tables.insertEvent_cases hu' <;> exact hu
    rw [Queued, hsame.left, hsame.right]
    exact .inl h
  | write hw                  =>
    obtain ⟨-, -, state, rfl, -⟩ := Tables.write_cases hw
    exact (em _).imp (fun hc => ⟨hc, h.right⟩) .inl
  | mark hm                   =>
    obtain ⟨_, -, -, rfl⟩ := Tables.mark_cases hm
    exact .inl h
  | enqueue he                => exact .inl (h.enqueue he)
  | purge                     =>
    obtain ⟨hc, hw⟩ := h
    obtain ⟨work, hl, hhash⟩ := Option.map_eq_some_iff.mp hw
    refine .inl ⟨hc, Option.map_eq_some_iff.mpr ⟨work, Finmap.lookup_select_eq_some.mpr ⟨hl, fun _ => ?_⟩, hhash⟩⟩
    rw [Tables.Matching, hc, Option.map_some, hhash]
  | @commit name model rows   =>
    by_cases hi : index = name
    case pos =>
      subst hi
      have hall : Queued (t.commit index model rows) index id chunk ∨ Embedded (t.commit index model rows) index id chunk :=
        Tables.commit_invariant (I := fun u => Queued u index id chunk ∨ Embedded u index id chunk)
          (fun _ _ _ hu => Queued.commitOne hu) (.inl h)
      obtain hq | ⟨-, -, hcurrent⟩ := hall
      · exact .inl hq
      · exact .inr (.inr ⟨hcurrent, model, rows, rfl⟩)
    case neg =>
      left
      refine Tables.commit_invariant (I := fun u => Queued u index id chunk) (fun u row _ hu => ?_) h
      obtain ⟨-, kept, heq⟩ | heq := Tables.commitOne_cases u name model row.1 row.2
      · have hne : ((index, id) : Slot) ≠ (name, row.1.id) := fun he => hi (Prod.mk.inj he).left
        rw [heq]
        exact ⟨hu.left, (congrArg _ (Finmap.lookup_erase_ne hne)).trans hu.right⟩
      · rwa [heq]
  | defer                     =>
    obtain ⟨work, hl, hhash⟩ := Option.map_eq_some_iff.mp h.right
    refine .inl ⟨h.left, ?_⟩
    simp only [Tables.defer, Finmap.lookup_mapValues, hl, Option.map_some]
    split <;> exact congrArg some hhash
  | drop                      => exact .inl (h.drop hs _)
  | @consume consumer uid     =>
    cases consumer with
    | packs   => exact .inl h
    | lessons => exact .inl h
    | search  =>
      by_cases hu : id.session = uid
      case pos => exact .inr (.inl (by simp [Tables.consume, hu]))
      case neg =>
        left
        simpa only [Queued, Tables.consume, Finmap.lookup_restrict, hu, ne_eq, not_false_eq_true, if_true] using h
  | _                         => exact .inl h

-- After an enqueue every chunk of the target is embedded as it is or waits to be.
theorem tended_enqueue {grant : Grant} {target : Target} {now : ℕ} (he : t.enqueue grant target now = some t')
    (hs : (t'.stored target.session target.version).lookup id = some chunk) :
    t'.Current target.index id chunk ∨ Queued t' target.index id chunk := by
  obtain ⟨-, vectors, queued, hvectors, hqueued, rfl⟩ := Tables.enqueue_cases he
  have hc : t.chunks.lookup id = some chunk := (Finmap.lookup_restrict_eq_some.mp hs).right
  by_cases hv : (vectors.lookup (target.index, id)).map Vector.contentHash = some chunk.contentHash
  case pos => exact .inl hv
  case neg =>
    refine .inr ⟨hc, ?_⟩
    rw [Tables.lookup_queue, if_pos rfl]
    by_cases hw : (queued.lookup (target.index, id)).map Work.contentHash = some chunk.contentHash
    case neg =>
      have hf : (t.fresh target vectors queued).lookup id = some chunk.contentHash :=
        Tables.lookup_fresh.mpr ⟨chunk, hs, rfl, hv, hw⟩
      rw [hf]
      rfl
    case pos =>
      cases hf : (t.fresh target vectors queued).lookup id with
      | none      => simpa [hf] using hw
      | some hash =>
        obtain ⟨other, hother, rfl, -⟩ := Tables.lookup_fresh.mp hf
        cases hother.symm.trans hs
        simp [hf]

end Queue

section Vectors

-- A vector that a row of a commit has written, for work that was queued.
def Wrote (t u : Tables) (slot : Slot) : Prop :=
  u.vectors.lookup slot = t.vectors.lookup slot ∧ u.work.lookup slot = t.work.lookup slot ∨
  u.work.lookup slot = none ∧ ∃ vector work, u.vectors.lookup slot = some vector ∧ t.work.lookup slot = some work ∧
    work.contentHash = vector.contentHash

theorem wrote_commit {model : EmbeddingModel} {rows : List (Chunk × List ℤ)} : Wrote t (t.commit index model rows) slot := by
  refine Tables.commit_invariant (I := fun u => Wrote t u slot) (fun u row _ hu => ?_) (.inl ⟨rfl, rfl⟩)
  obtain ⟨htaken, kept, heq⟩ | heq := Tables.commitOne_cases u index model row.1 row.2
  · rw [heq]
    by_cases hs : slot = (index, row.1.id)
    case neg => simpa only [Wrote, Finmap.lookup_erase_ne hs, Finmap.lookup_insert_of_ne _ hs] using hu
    case pos =>
      subst hs
      obtain ⟨work, hw, hhash⟩ := Option.map_eq_some_iff.mp htaken
      obtain ⟨-, hsame⟩ | ⟨hn, -⟩ := hu
      · exact .inr ⟨Finmap.lookup_erase _ _, _, work, Finmap.lookup_insert _, hsame.symm.trans hw, hhash⟩
      · cases hn.symm.trans hw
  · rwa [heq]

-- Only a commit writes vectors, and only for work of the same content.
theorem vectors_effect {command : Command} {vector : Vector} (he : Effect t command t')
    (hv : t'.vectors.lookup slot = some vector) :
    t.vectors.lookup slot = some vector ∨ t'.work.lookup slot = none ∧ (∃ index model rows, command = .commit index model rows) ∧
      ∃ work, t.work.lookup slot = some work ∧ work.contentHash = vector.contentHash := by
  cases he with
  | ingest hi                 =>
    have hsame : t'.vectors = t.vectors := by
      refine Tables.ingest_invariant (I := fun u => u.vectors = t.vectors) (fun event _ u u' hu hu' => ?_) (fun _ _ hu => hu) rfl hi
      obtain ⟨rfl, -⟩ | ⟨-, rfl⟩ := Tables.insertEvent_cases hu' <;> exact hu
    exact .inl (hsame ▸ hv)
  | write hw                  =>
    obtain ⟨-, -, state, rfl, -⟩ := Tables.write_cases hw
    exact .inl hv
  | mark hm                   =>
    obtain ⟨_, -, -, rfl⟩ := Tables.mark_cases hm
    exact .inl hv
  | enqueue he                =>
    obtain ⟨-, _, _, rfl, -, rfl⟩ := Tables.enqueue_cases he
    exact .inl (Finmap.lookup_restrict_eq_some.mp hv).right
  | @commit name model rows   =>
    have hwrote : Wrote t (t.commit name model rows) slot := wrote_commit
    obtain ⟨hsame, -⟩ | ⟨hn, other, work, hother, hw, hhash⟩ := hwrote
    · exact .inl (hsame.symm.trans hv)
    · cases hother.symm.trans hv
      exact .inr ⟨hn, ⟨name, model, rows, rfl⟩, work, hw, hhash⟩
  | drop                      => exact .inl (Finmap.lookup_restrict_eq_some.mp hv).right
  | @consume consumer uid     =>
    cases consumer with
    | packs   => exact .inl hv
    | lessons => exact .inl hv
    | search  => exact .inl (Finmap.lookup_restrict_eq_some.mp hv).right
  | _                         => exact .inl hv

-- Only an activation with every chunk embedded changes the active index.
theorem cutover_effect {command : Command} (he : Effect t command t') : t'.indexCutover = t.indexCutover ∨
    ∃ name revision, ¬ t.Uncovered name ∧ t' = { t with indexCutover := some (name, revision) } := by
  cases he with
  | ingest hi                 =>
    left
    refine Tables.ingest_invariant (I := fun u => u.indexCutover = t.indexCutover) (fun event _ u u' hu hu' => ?_)
      (fun _ _ hu => hu) rfl hi
    obtain ⟨rfl, -⟩ | ⟨-, rfl⟩ := Tables.insertEvent_cases hu' <;> exact hu
  | write hw                  =>
    obtain ⟨-, -, state, rfl, -⟩ := Tables.write_cases hw
    exact .inl rfl
  | mark hm                   =>
    obtain ⟨_, -, -, rfl⟩ := Tables.mark_cases hm
    exact .inl rfl
  | enqueue he                =>
    obtain ⟨-, _, _, -, -, rfl⟩ := Tables.enqueue_cases he
    exact .inl rfl
  | @commit name model rows   =>
    left
    refine Tables.commit_invariant (I := fun u => u.indexCutover = t.indexCutover) (fun u row _ hu => ?_) rfl
    obtain ⟨-, kept, heq⟩ | heq := Tables.commitOne_cases u name model row.1 row.2 <;> rw [heq] <;> exact hu
  | activateIndex _ hu        => exact .inr ⟨_, _, hu, rfl⟩
  | @consume consumer         => cases consumer <;> exact .inl rfl
  | _                         => exact .inl rfl

end Vectors

section Runs

variable {domain : String} {start : Tables} {w : World} {e : Move} {es : List Move}

def IsEmbed : Command → Prop
  | .embed _ => True
  | _        => False

instance : DecidablePred IsEmbed := fun command => by
  cases command <;> unfold IsEmbed <;> infer_instance

theorem atMost_rounds {limits : Limits} {model : EmbeddingModel} {n : ℕ} : (rounds limits model index n).AtMost IsEmbed n := by
  induction n with
  | zero      => trivial
  | succ n ih =>
    refine Steps.atMost_ask id fun _ => Steps.atMost_ask id fun rows => ?_
    dsimp only
    split
    case isTrue  => trivial
    case isFalse =>
      refine Steps.atMost_counted fun answer => ?_
      split
      case h_1 => exact Steps.atMost_ask id fun _ => Steps.atMost_ensure_last
      case h_2 => exact Steps.atMost_ensure (Steps.atMost_ask id fun _ => ih)

theorem atMost_drain {limits : Limits} {embedder : EmbeddingModel} :
    (program domain (.drain limits embedder index)).AtMost IsEmbed limits.maxBatches := by
  refine Steps.AtMost.map (Steps.atMost_ask id fun found => ?_)
  split
  case h_1 => trivial
  case h_2 found =>
    refine Steps.atMost_ensure ?_
    split
    case isTrue  => exact atMost_rounds.mono (Nat.zero_le _)
    case isFalse => exact atMost_rounds

theorem guarantees : Interleaved.Guarantees exec rely (fun _ _ _ => True) Allowed :=
  fun _ _ _ _ _ _ h ha _ hx => h.effect ha (effect_of_exec hx)

abbrev Secure (w : World) : Prop :=
  Interleaved.Secure exec rely Allowed (fun _ _ _ => True) w

theorem secure_step (h : Secure w) : Secure (step domain w e) :=
  (Interleaved.Secure.step guarantees (fun _ _ hs => safe_program hs) h Interleaved.meets_true).left

theorem secure_run (h : Sound start) : Secure (Run.run (step domain) (.start start) es) :=
  Run.invariant (fun _ _ h => secure_step h) (.start h)

-- The step leaves the chunk as it is, and is not a drain's that writes its vector.
def Waits (domain : String) (index : String) (id : ChunkId) (chunk : Chunk) (w : World) (e : Move) : Prop :=
  (step domain w e).shared.chunks.lookup id = some chunk ∧
  ∀ n choice call model rows, e = .turn n choice → w.At n call (.commit index model rows) →
    ¬ (step domain w e).shared.Current index id chunk

theorem queued_step (h : Secure w) (hq : Queued w.shared index id chunk) (hw : Waits domain index id chunk w e) :
    Queued (step domain w e).shared index id chunk := by
  obtain hs | ⟨n, choice, call, command, rfl, hat, he⟩ := effect_step domain w e
  · rwa [hs]
  · obtain hkept | hgone | ⟨hcurrent, model, rows, rfl⟩ := hq.effect h.inv he
    · exact hkept
    · exact absurd hw.left hgone
    · exact absurd hcurrent (hw.right n choice call model rows rfl hat)

theorem queued_run (h : Secure w) (hq : Queued w.shared index id chunk)
    (hw : Run.Along (step domain) (Waits domain index id chunk) w es) : Queued (Run.run (step domain) w es).shared index id chunk := by
  have hstep (w : World) (e : Move) (hi : Secure w ∧ Queued w.shared index id chunk) (hw : Waits domain index id chunk w e) :
      Secure (step domain w e) ∧ Queued (step domain w e).shared index id chunk :=
    ⟨secure_step hi.left, queued_step hi.left hi.right hw⟩
  exact (hw.invariant hstep ⟨h, hq⟩).right

-- The index that has become active covers every chunk of what the retained sessions are searched by.
theorem covered_step {revision : ℕ} (hn : (step domain w e).shared.indexCutover = some (index, revision))
    (hold : w.shared.indexCutover ≠ some (index, revision)) (hr : (step domain w e).shared.Retained id.session)
    (hactive : ((step domain w e).shared.cutovers.lookup id.session).map Prod.fst = some id.version)
    (hc : (step domain w e).shared.chunks.lookup id = some chunk) : (step domain w e).shared.Current index id chunk := by
  obtain hs | ⟨n, choice, call, command, rfl, hat, he⟩ := effect_step domain w e
  · exact absurd (hs ▸ hn) hold
  · obtain hs | ⟨name, revision', hu, heq⟩ := cutover_effect he
    · exact absurd (hs.symm.trans hn) hold
    · rw [heq] at hn hr hactive hc ⊢
      cases hn
      by_contra hcurrent
      exact hu ⟨id, chunk, hc, hr, .inl hactive, hcurrent⟩

-- Whatever the calls do in between: a vector is of its chunk's content, a chunk that an enqueue finds without one waits
-- until a drain writes it or the chunk goes, a vector is written for work of its content only, a drain asks the provider
-- no more often than it may, and an index becomes active with every searchable chunk embedded.
theorem vectors_run (domain : String) (start : Tables) (h : Sound start) (es : List Move) :
    let w := Run.run (step domain) (.start start) es
    (∀ slot vector chunk, w.shared.vectors.lookup slot = some vector → w.shared.chunks.lookup slot.2 = some chunk →
      vector.contentHash = chunk.contentHash) ∧
    (∀ n choice call grant target now t', w.At n call (.enqueue grant target now) →
      w.shared.enqueue grant target now = some t' → (step domain w (.turn n choice)).shared = t' ∧
      ∀ id chunk, (t'.stored target.session target.version).lookup id = some chunk →
        t'.Current target.index id chunk ∨ Queued t' target.index id chunk) ∧
    (∀ index id chunk es', Queued w.shared index id chunk → Run.Along (step domain) (Waits domain index id chunk) w es' →
      Queued (Run.run (step domain) w es').shared index id chunk) ∧
    (∀ e slot vector, (step domain w e).shared.vectors.lookup slot = some vector → w.shared.vectors.lookup slot ≠ some vector →
      (step domain w e).shared.work.lookup slot = none ∧
      (∃ n choice call index model rows, e = .turn n choice ∧ w.At n call (.commit index model rows)) ∧
      ∃ work, w.shared.work.lookup slot = some work ∧ work.contentHash = vector.contentHash) ∧
    (∀ n limits embedder index es', w.calls n = none →
      Interleaved.performed (program domain) exec IsEmbed n (step domain w (.call n (.drain limits embedder index))) es' ≤
        limits.maxBatches) ∧
    ∀ e index revision, (step domain w e).shared.indexCutover = some (index, revision) →
      w.shared.indexCutover ≠ some (index, revision) → ∀ id chunk, (step domain w e).shared.Retained id.session →
      ((step domain w e).shared.cutovers.lookup id.session).map Prod.fst = some id.version →
      (step domain w e).shared.chunks.lookup id = some chunk → (step domain w e).shared.Current index id chunk := by
  intro w
  have hw : Secure w := secure_run h
  refine ⟨fun slot vector chunk hv hc => hw.inv.agree hv hc, ?_, fun index id chunk es' hq hk => queued_run hw hq hk, ?_, ?_,
    fun e index revision hn hold id chunk hr hactive hc => covered_step hn hold hr hactive hc⟩
  · intro n choice call grant target now t' hat he
    obtain ⟨next, hcall⟩ := hat
    refine ⟨?_, fun id chunk hs => tended_enqueue he hs⟩
    simp [step, Interleaved.step, Interleaved.World.turn, hcall, exec, he, orKeep]
  · intro e slot vector hv hold
    obtain hs | ⟨n, choice, call, command, rfl, hat, heffect⟩ := effect_step domain w e
    · exact absurd (hs ▸ hv) hold
    · obtain hsame | ⟨hn, ⟨index, model, rows, rfl⟩, hwork⟩ := vectors_effect heffect hv
      · exact absurd hsame hold
      · exact ⟨hn, ⟨n, choice, call, index, model, rows, rfl, hat⟩, hwork⟩
  · intro n limits embedder index es' hn
    have hcall : (step domain w (.call n (.drain limits embedder index))).calls n =
        some ⟨.drain limits embedder index, program domain (.drain limits embedder index)⟩ := by
      simp [step, Interleaved.step, hn, Interleaved.World.set]
    exact Interleaved.performed_le hcall atMost_drain

-- A session whose chunk is embedded.
def indexed : List Move :=
  let here : Choice := ⟨[], none⟩
  let id : ChunkId := ⟨"v1", "s", "g", .turn, [1]⟩
  let policy : Policy := ⟨"v1", 10⟩
  let grant : Grant := ⟨"p", "d", ∅⟩
  let said : Event := ⟨"e", 1, 0, 5, none, ⟨.userText, "hello", "", "", "", "", false, none, none, ""⟩, "h"⟩
  let steps (n count : ℕ) : List Move := List.replicate count (.turn n here)
  [.call 0 (.register ⟨"s", "g", "claude", "o", "retain-until-deleted"⟩)] ++ steps 0 2 ++
    [.call 0 (.ingest "s" "g" [said] [])] ++ steps 0 2 ++ [.call 0 (.build grant "s" none policy)] ++ steps 0 5 ++
    [.call 0 (.registerIndex "i" ⟨"m", 1⟩)] ++ steps 0 2 ++ [.call 0 (.enqueue grant ⟨"s", "v1", "i"⟩ 7)] ++ steps 0 2 ++
    [.call 0 (.drain ⟨1, 100, 1⟩ ⟨"m", 1⟩ "i")] ++ steps 0 2 ++ [.turn 0 ⟨[id], none⟩, .turn 0 ⟨[], some [[3]]⟩] ++ steps 0 2

theorem vectors_run_indexed : ∃ slot vector chunk,
    (Run.run (step "d") (.start empty) indexed).shared.vectors.lookup slot = some vector ∧
    (Run.run (step "d") (.start empty) indexed).shared.chunks.lookup slot.2 = some chunk ∧
    vector.contentHash = chunk.contentHash := by
  have hv : ((Run.run (step "d") (.start empty) indexed).shared.vectors.lookup
      ("i", ⟨"v1", "s", "g", .turn, [1]⟩)).isSome := by decide +kernel
  have hc : ((Run.run (step "d") (.start empty) indexed).shared.chunks.lookup
      ⟨"v1", "s", "g", .turn, [1]⟩).isSome := by decide +kernel
  obtain ⟨vector, hv⟩ := Option.isSome_iff_exists.mp hv
  obtain ⟨chunk, hc⟩ := Option.isSome_iff_exists.mp hc
  exact ⟨_, vector, chunk, hv, hc, (vectors_run "d" empty .empty indexed).left _ _ _ hv hc⟩

end Runs

end SearchIndex
