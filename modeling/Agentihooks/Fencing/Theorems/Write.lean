import Agentihooks.Fencing.Write
import Agentihooks.Fencing.Theorems.Records

-- The chain of an external archive holds what was saved last.

namespace Fencing

open Program

namespace Archive

variable {archive : Dict String AgentRecord} {keys : Finset String} {reference : Archive} {i n : ℕ}
variable {key : String}

theorem lookup_save :
    (reference.save archive keys i).rows.lookup key =
      if key ∈ batch keys i then (archive.lookup key).or (reference.rows.lookup key)
      else reference.rows.lookup key := by
  simp only [save, rows, Finmap.lookup_union, Finmap.lookup_restrict, Finset.notMem_empty, not_false_eq_true, if_true]
  split <;> rfl

-- After `n` chunks the keys of rank below `64 * n` have been saved.
theorem lookup_foldl_save (ha : keys ⊆ archive.keys) :
    ((List.range n).foldl (save archive keys) reference).rows.lookup key =
      if key ∈ keys ∧ (keys.filter (· < key)).card / 64 < n then archive.lookup key
      else reference.rows.lookup key := by
  induction n
  case zero => simp
  case succ n hi =>
    rw [List.range_succ, List.foldl_append, List.foldl_cons, List.foldl_nil, lookup_save, hi]
    simp only [batch, Finset.mem_filter]
    by_cases hk : key ∈ keys
    case neg => simp [hk]
    case pos =>
      obtain ⟨row, hrow⟩ := Finmap.mem_iff.mp (Finmap.mem_keys.mp (ha hk))
      simp only [hk, true_and, hrow, Option.some_or]
      split_ifs <;> first | rfl | omega

theorem rank_lt (hk : key ∈ keys) : (keys.filter (· < key)).card / 64 < (keys.card + 63) / 64 := by
  have hc : (keys.filter (· < key)).card < keys.card := by
    refine Finset.card_lt_card ⟨Finset.filter_subset .., fun h => ?_⟩
    exact lt_irrefl key (Finset.mem_filter.mp (h hk)).right
  omega

theorem rows_externalize : (reference.externalize archive).rows = archive := by
  refine Finmap.ext_lookup fun key => ?_
  have hs : reference.changed archive ⊆ archive.keys := Finset.filter_subset ..
  simp only [externalize]
  rw [lookup_foldl_save hs]
  by_cases hc : key ∈ reference.changed archive
  case pos => rw [if_pos ⟨hc, rank_lt hc⟩]
  case neg =>
    rw [if_neg fun h => hc h.left]
    by_cases ha : key ∈ archive.keys
    case pos =>
      have he : reference.rows.lookup key = archive.lookup key := by
        by_contra hne
        exact hc (Finset.mem_filter.mpr ⟨ha, hne⟩)
      split
      case isTrue  => exact he
      case isFalse =>
        simp [rows, he, ha]
    case neg =>
      rw [Finmap.lookup_eq_none_of_notMem_keys ha]
      split
      case isTrue hr =>
        refine Finmap.lookup_eq_none_of_notMem_keys fun hk => ?_
        have hm := Finset.mem_sdiff.mpr ⟨hk, ha⟩
        rw [hr] at hm
        exact Finset.notMem_empty _ hm
      case isFalse =>
        by_cases hk : key ∈ reference.rows.keys
        case pos => simp [rows, hk, ha]
        case neg => simp [rows, Finmap.lookup_eq_none_of_notMem_keys hk]

end Archive

variable {α : Type} {t : DocumentAttempt α} {entry found : Entry} {after : Document} {kind : Kind} {result : α}

theorem DocumentAttempt.commit_eq_committed :
    t.commit found = .committed result entry ↔
      ∃ after, t.change.exec t.entry.history t.entry.decode = .ok (result, after) ∧
        ¬((∀ s, (t.before.settle t.kind after).document s = t.before.document s) ∧
          (t.before.settle t.kind after).reference = t.before.reference) ∧
        found.revision = t.entry.revision ∧
        entry = { t.before.settle t.kind after with revision := found.revision + 1 } := by
  have hb : t.before.document = t.entry.decode := rfl
  unfold commit
  rw [hb]
  constructor
  case mp =>
    intro h
    split at h
    case h_1 => cases h
    case h_2 hx =>
      dsimp only at h
      split at h
      case isTrue => cases h
      case isFalse hn =>
        split at h
        case isFalse => cases h
        case isTrue hr =>
          cases h
          exact ⟨_, hx, hn, hr, rfl⟩
  case mpr =>
    rintro ⟨after, hx, hn, hr, rfl⟩
    rw [hx]
    dsimp only
    rw [if_neg hn, if_pos hr]

namespace Entry

theorem scalar_settle : (entry.settle kind after).document .scalar = after .scalar := by
  unfold settle
  split
  case h_1 => rfl
  case h_2 =>
    split
    case isTrue  => simp
    case isFalse => split <;> simp

theorem moved_settle : (entry.settle kind after).moved = entry.moved := by
  unfold settle
  split
  case h_1 => rfl
  case h_2 =>
    split
    case isTrue  => rfl
    case isFalse => split <;> rfl

theorem fetch_decode {k : Scalar} {v : k.Value} (h : entry.document.fetch ⟨.scalar, k⟩ = some v) :
    entry.decode.fetch ⟨.scalar, k⟩ = some v := by
  have hv : (entry.document .scalar).lookup k = some v := h
  simp [Sections.fetch, decode, Finmap.lookup_union, hv]

end Entry

-- A commit leaves a later entry of the same document.
theorem DocumentAttempt.commit_later (h : t.commit found = .committed result entry) :
    found.revision = t.entry.revision ∧ entry.revision = found.revision + 1 ∧ entry.moved = t.entry.moved := by
  obtain ⟨after, _, _, hr, rfl⟩ := commit_eq_committed.mp h
  exact ⟨hr, rfl, Entry.moved_settle⟩

end Fencing

-- A write on either layout: what it leaves of a record is what its change made of the record, which it found as it was
-- loaded, or what was there.

namespace Fencing

open Program Versioned

variable {α β : Type} {swarm swarm' : Swarm} {nowMs : Int} {result : α} {entry : Entry} {kind : Kind}
variable {after : Document} {s : Section} {k : s.Key}

-- The sections of which a document has the stored records as they are, and nothing else.
def Section.IsPlain : Section → Prop
  | .scalar | .archive | .byName | .archivedNames => False
  | _                                             => True

theorem Section.IsPlain.isLoaded (h : s.IsPlain) : s.isLoaded ∧ s ≠ .byName := by
  cases s <;> first | exact h.elim | exact ⟨rfl, by simp⟩

theorem Section.IsPlain.fetch_decode (h : s.IsPlain) : entry.decode.fetch ⟨s, k⟩ = entry.document.fetch ⟨s, k⟩ := by
  cases s <;> first | exact h.elim | rfl

theorem Section.IsPlain.fetch_settle (h : s.IsPlain) :
    (entry.settle kind after).document.fetch ⟨s, k⟩ = after.fetch ⟨s, k⟩ := by
  have hs : s ≠ .archive := by
    rintro rfl
    exact h
  rw [Entry.settle]
  split
  case h_1 => rfl
  case h_2 =>
    split
    case isTrue  => exact Sections.fetch_assign_other hs
    case isFalse =>
      split
      case isTrue  => rfl
      case isFalse => exact Sections.fetch_assign_other hs

theorem Section.IsPlain.fetch_loadedDocument {store : Store} (h : s.IsPlain) :
    (loadedDocument store).fetch ⟨s, k⟩ = ((store.rows s).lookup k).map Record.value := by
  have hv : (loadedDocument store).fetch ⟨s, k⟩ = ((sections store Section.isLoaded).values s).lookup k := by
    cases s <;> first | exact h.elim | rfl
  rw [hv, lookup_values, rows_sections, if_pos h.isLoaded.left]

theorem Swarm.commit_eq_committed {t : WriteAttempt α} (h : swarm.commit t nowMs = .committed result swarm') :
    (∃ t' entry, t = .document t' ∧ t'.commit swarm.entry = .committed result entry ∧
      swarm' = { swarm with entry := entry }) ∨
    ∃ t' store, t = .records t' ∧ t'.commit nowMs swarm.store = .committed result store ∧
      swarm' = { swarm with store := store } := by
  cases t
  case document t =>
    obtain ⟨entry, hc, he⟩ := Outcome.map_eq_committed.mp h
    exact .inl ⟨t, entry, rfl, hc, he.symm⟩
  case records t =>
    obtain ⟨store, hc, he⟩ := Outcome.map_eq_committed.mp h
    exact .inr ⟨t, store, rfl, hc, he.symm⟩

theorem DocumentAttempt.exec_of_returned {t : DocumentAttempt α} (h : t.commit entry = .returned result) :
    ∃ after, t.change.exec t.entry.history t.entry.decode = .ok (result, after) ∧
      ∀ {s : Section} {k : s.Key}, s.IsPlain → after.fetch ⟨s, k⟩ = t.entry.decode.fetch ⟨s, k⟩ := by
  rw [commit] at h
  split at h
  case h_1 => cases h
  case h_2 found after hx =>
    dsimp only at h
    split at h
    case isTrue hsame =>
      cases h
      refine ⟨after, hx, ?_⟩
      intro s k hs
      have hset : (t.before.settle t.kind after).document.fetch ⟨s, k⟩ = after.fetch ⟨s, k⟩ := hs.fetch_settle
      rw [← hset, Sections.fetch, hsame.left s]
      rfl
    case isFalse => split at h <;> cases h

theorem Attempt.exec_of_returned {t : Attempt α} {store : Store} (h : t.commit nowMs store = .returned result) :
    ∃ after, t.change.exec t.history (assemble t.loaded) = .ok (result, after) ∧
      ∀ {s : Section} {k : s.Key}, s.IsPlain → after.fetch ⟨s, k⟩ = (assemble t.loaded).fetch ⟨s, k⟩ := by
  rw [commit] at h
  split at h
  case h_1 => cases h
  case h_2 found after hx =>
    split at h
    case isTrue hempty =>
      cases h
      refine ⟨after, hx, ?_⟩
      intro s k hs
      by_contra hne
      have hw := fetch_writes hs.isLoaded (Ne.symm hne)
      rw [Sections.fetch, hempty s] at hw
      cases hw
    case isFalse => split at h <;> cases h

namespace WriteAttempt

variable {t : WriteAttempt α} {t' : WriteAttempt β}

-- The change reads the section as a whole.
def Scans (s : Section) (t : WriteAttempt α) : Prop :=
  ∃ r, readSet t.history t.write.change t.loaded .initial s = some r ∧ r.whole

-- What the attempt has loaded is an earlier state of the swarm.
def Taken (swarm : Swarm) : WriteAttempt α → Prop
  | document t => swarm.entry.moved = false ∧ t.entry.revision ≤ swarm.entry.revision ∧
    (t.entry.revision = swarm.entry.revision → t.entry = swarm.entry)
  | records t  => swarm.entry.moved = true ∧ t.Taken swarm.store

@[simp]
theorem loaded_start {w : FencedWrite α} : (swarm.start w).loaded = swarm.document := by
  rw [Swarm.start, Swarm.document]
  split <;> rfl

@[simp]
theorem loaded_hydrate {store : Store} : (t.hydrate store).loaded = t.loaded := by
  cases t <;> rfl

theorem Taken.start {w : FencedWrite α} : (swarm.start w).Taken swarm := by
  rw [Swarm.start]
  split
  case isTrue h  => exact ⟨h, .start⟩
  case isFalse h => exact ⟨by simpa using h, le_rfl, fun _ => rfl⟩

theorem Taken.hydrate (h : t.Taken swarm) : (t.hydrate swarm.store).Taken swarm := by
  cases t
  case document => exact h
  case records  => exact ⟨h.left, h.right.hydrate⟩

-- It is still one after a commit of any attempt.
theorem Taken.commit (h : t.Taken swarm) (ht : t'.Taken swarm) {result : β}
    (hc : swarm.commit t' nowMs = .committed result swarm') : t.Taken swarm' := by
  obtain ⟨t', entry, rfl, hc', rfl⟩ | ⟨t', store, rfl, hc', rfl⟩ := Swarm.commit_eq_committed hc
  case inl =>
    obtain ⟨hr, hn, hm⟩ := DocumentAttempt.commit_later hc'
    rw [ht.right.right hr.symm] at hm
    cases t
    case document t =>
      obtain ⟨hmoved, hle, _⟩ := h
      refine ⟨hm.trans hmoved, ?_, ?_⟩
      case refine_1 =>
        dsimp only
        omega
      case refine_2 =>
        intro he
        dsimp only at he
        omega
    case records => exact ⟨hm.trans h.left, h.right⟩
  case inr =>
    obtain ⟨after, _, _, hb⟩ := Attempt.commit_eq_committed.mp hc'
    obtain ⟨_, _, rfl⟩ := fencedBatch_ok hb
    cases t
    case document => exact h
    case records  => exact ⟨h.left, h.right.apply⟩

theorem exec_of_returned (h : swarm.commit t nowMs = .returned result) :
    ∃ after, t.write.change.exec t.history t.loaded = .ok (result, after) ∧
      ∀ {s : Section} {k : s.Key}, s.IsPlain → after.fetch ⟨s, k⟩ = t.loaded.fetch ⟨s, k⟩ := by
  cases t
  case document t =>
    cases hc : t.commit swarm.entry
    all_goals
      rw [Swarm.commit, hc] at h
      cases h
    exact t.exec_of_returned hc
  case records t =>
    cases hc : t.commit nowMs swarm.store
    all_goals
      rw [Swarm.commit, hc] at h
      cases h
    exact t.exec_of_returned hc

theorem exec_of_committed (h : swarm.commit t nowMs = .committed result swarm') :
    ∃ after, t.write.change.exec t.history t.loaded = .ok (result, after) := by
  obtain ⟨t, entry, rfl, hc, rfl⟩ | ⟨t, store, rfl, hc, rfl⟩ := Swarm.commit_eq_committed h
  case inl =>
    obtain ⟨after, hx, -⟩ := DocumentAttempt.commit_eq_committed.mp hc
    exact ⟨after, hx⟩
  case inr =>
    obtain ⟨after, hx, -⟩ := Attempt.commit_eq_committed.mp hc
    exact ⟨after, hx⟩

-- A commit leaves `d'` of `d`, where the change led from `before` to `after`.
structure Merges (before after d d' : Document) : Prop where
  kept    : ∀ {s : Section} {k : s.Key}, s.IsPlain → before.fetch ⟨s, k⟩ = after.fetch ⟨s, k⟩ →
    d'.fetch ⟨s, k⟩ = d.fetch ⟨s, k⟩
  written : ∀ {s : Section} {k : s.Key}, s.IsPlain → before.fetch ⟨s, k⟩ ≠ after.fetch ⟨s, k⟩ →
    d.fetch ⟨s, k⟩ = before.fetch ⟨s, k⟩ ∧ d'.fetch ⟨s, k⟩ = after.fetch ⟨s, k⟩

theorem merges_document {t : DocumentAttempt α} (ht : (document t).Taken swarm)
    (h : t.commit swarm.entry = .committed result entry) : ∃ after,
    t.change.exec t.entry.history t.entry.decode = .ok (result, after) ∧ swarm.document = t.entry.decode ∧
      Merges t.entry.decode after swarm.document { swarm with entry := entry }.document := by
  obtain ⟨hm, _, he⟩ := ht
  obtain ⟨after, hx, -, hr, rfl⟩ := DocumentAttempt.commit_eq_committed.mp h
  have heq := he hr.symm
  have hd : swarm.document = t.entry.decode := by
    rw [Swarm.document, hm, heq]
    rfl
  have hf {s : Section} {k : s.Key} (hs : s.IsPlain) : (Swarm.document { swarm with
      entry := { t.before.settle t.kind after with revision := swarm.entry.revision + 1 } }).fetch ⟨s, k⟩ =
      after.fetch ⟨s, k⟩ := by
    rw [Swarm.document, if_neg (by simp [Entry.moved_settle, DocumentAttempt.before, heq, hm]), hs.fetch_decode]
    exact hs.fetch_settle
  refine ⟨after, hx, hd, ?_, ?_⟩
  case refine_1 =>
    intro s k hs hk
    rw [hf hs, hd, hk]
  case refine_2 =>
    intro s k hs _
    exact ⟨by rw [hd], hf hs⟩

theorem merges_records {t : Attempt α} {store : Store} (ht : (records t).Taken swarm)
    (h : t.commit nowMs swarm.store = .committed result store) : ∃ after,
    t.change.exec t.history (assemble t.loaded) = .ok (result, after) ∧ swarm.store.Meets (t.batch after) ∧
      Merges (assemble t.loaded) after swarm.document { swarm with store := store }.document := by
  obtain ⟨hmoved, ht⟩ := ht
  obtain ⟨after, hx, -, hb⟩ := Attempt.commit_eq_committed.mp h
  obtain ⟨-, hm, rfl⟩ := fencedBatch_ok hb
  have hd (store : Store) : Swarm.document { swarm with store := store } = loadedDocument store := by
    rw [Swarm.document, if_pos hmoved]
  refine ⟨after, hx, hm, ?_, ?_⟩
  case refine_1 =>
    intro s k hs hk
    rw [hd, show swarm.document = _ from hd swarm.store]
    exact Attempt.loadedDocument_apply_of_eq hs.isLoaded hk
  case refine_2 =>
    intro s k hs hk
    rw [hd, hd]
    refine ⟨Attempt.fetch_of_written ht hm hs.isLoaded hk, ?_⟩
    rw [hs.fetch_loadedDocument, Attempt.fetch_apply hs.isLoaded, if_neg hk, Option.map_map]
    exact Option.map_id'

theorem commit_merges (ht : t.Taken swarm) (h : swarm.commit t nowMs = .committed result swarm') :
    ∃ after, t.write.change.exec t.history t.loaded = .ok (result, after) ∧
      Merges t.loaded after swarm.document swarm'.document := by
  obtain ⟨t, entry, rfl, hc, rfl⟩ | ⟨t, store, rfl, hc, rfl⟩ := Swarm.commit_eq_committed h
  case inl =>
    obtain ⟨after, hx, -, hm⟩ := merges_document ht hc
    exact ⟨after, hx, hm⟩
  case inr =>
    obtain ⟨after, hx, -, hm⟩ := merges_records ht hc
    exact ⟨after, hx, hm⟩

-- A commit finds every record that was there when the change read its section.
theorem fetch_of_scanned (ht : t.Taken swarm) (h : swarm.commit t nowMs = .committed result swarm') (hs : s.IsPlain)
    (hr : t.Scans s) (hk : t.loaded.fetch ⟨s, k⟩ ≠ none) :
    swarm.document.fetch ⟨s, k⟩ = t.loaded.fetch ⟨s, k⟩ := by
  obtain ⟨t, entry, rfl, hc, rfl⟩ | ⟨t, store, rfl, hc, rfl⟩ := Swarm.commit_eq_committed h
  case inl =>
    obtain ⟨_, -, hd, -⟩ := merges_document ht hc
    rw [hd]
    rfl
  case inr =>
    obtain ⟨after, -, hm, -⟩ := merges_records ht hc
    obtain ⟨r, hr, hw⟩ := hr
    rw [Swarm.document, if_pos ht.left]
    apply Attempt.fetch_of_read ht.right hm hs.isLoaded hr
    case hk =>
      rw [if_pos hw]
      intro hn
      apply hk
      have hv : (loaded (records t)).fetch ⟨s, k⟩ = (t.loaded.values s).lookup k := by
        cases s <;> first | exact hs.elim | rfl
      rw [hv, lookup_values, hn]
      rfl
    case hl =>
      rintro - ⟨⟩
      exact hs

end WriteAttempt
end Fencing
