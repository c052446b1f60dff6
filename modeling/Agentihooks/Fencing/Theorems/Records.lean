import Agentihooks.Fencing.Records

-- What a batch does to the store, and what its acceptance says about the records it was computed from.

namespace Fencing

open Program Versioned

variable {store old : Store} {loaded loaded' : Loaded} {before after : Document} {names : Section → Bool}
variable {x : (s : Section) × s.Key} {rows rows' : Dict String AgentRecord} {α : Type} {t : Attempt α}
variable {fence : Option LeaseFence} {batch : Batch Section.Value} {nowMs : Int} {result : α}

@[simp]
theorem rows_sections {s : Section} : (sections store names).rows s = if names s then store.rows s else ∅ := by
  simp only [Loaded.rows, sections]
  split <;> rfl

@[simp]
theorem lookup_values {s : Section} {k : s.Key} :
    (loaded.values s).lookup k = ((loaded.rows s).lookup k).map Record.value :=
  Finmap.lookup_mapValues ..

-- A record of the assembled document comes from the same record of the loaded sections.
theorem fetch_assemble_congr
    (h : ((loaded.rows x.1).lookup x.2).map Record.value = ((loaded'.rows x.1).lookup x.2).map Record.value) :
    (assemble loaded).fetch x = (assemble loaded').fetch x := by
  obtain ⟨s, k⟩ := x
  have hv : (loaded.values s).lookup k = (loaded'.values s).lookup k := by
    rw [lookup_values, lookup_values]
    exact h
  cases s
  case scalar =>
    simp only [Sections.fetch, assemble, Finmap.lookup_union, Finmap.lookup_erase_ite, hv]
  case byName | archivedNames => rfl
  all_goals exact hv

-- The sections of the document that the layout stores records of, which leaves out the derived indexes.
def Section.IsDocument (s : Section) : Prop :=
  s ≠ .byName ∧ s ≠ .archivedNames

theorem fetch_assemble_of_some {s : Section} {k : s.Key} {r : Record (s.Value k)} (hs : s.IsDocument)
    (hl : (⟨s, k⟩ : (s : Section) × s.Key) ≠ ⟨.scalar, .layout⟩) (hr : (loaded.rows s).lookup k = some r) :
    (assemble loaded).fetch ⟨s, k⟩ = some r.value := by
  have hv : (loaded.values s).lookup k = some r.value := by rw [lookup_values, hr, Option.map_some]
  cases s
  case scalar =>
    have hk : k ≠ .layout := fun h => hl (by rw [h])
    simp only [Sections.fetch, assemble, Finmap.lookup_union, Finmap.lookup_erase_ite, if_neg hk, hv, Option.some_or]
  case byName        => exact absurd rfl hs.left
  case archivedNames => exact absurd rfl hs.right
  all_goals exact hv

theorem indexed_document {s : Section} (h : s.IsDocument) (d : Document) : indexed d s = d s := by
  cases s <;> first | rfl | exact absurd rfl h.left | exact absurd rfl h.right

@[simp]
theorem lookup_heads {name : String} :
    (heads rows).lookup name = rows.newest (·.name = name) (·.generation) := by
  refine Finmap.lookup_build_of_support fun h => ?_
  rw [Finmap.newest_eq_none]
  intro key row hk hn
  refine h (Finset.mem_biUnion.mpr ⟨key, ?_, ?_⟩)
  · exact Finmap.mem_keys.mpr (Finmap.mem_of_lookup_eq_some hk)
  · simp [hk, hn]

theorem heads_congr (h : ∀ key, rows.lookup key = rows'.lookup key) : heads rows = heads rows' := by
  rw [Finmap.ext_lookup h]

theorem lookup_sectionChanges {s : Section} {k : s.Key} {before after : Finmap s.Value} :
    (sectionChanges s before after loaded).lookup k =
      if before.lookup k = after.lookup k then none else some (.toLeave (expected loaded s k) (after.lookup k)) := by
  refine Finmap.lookup_build_of_support fun h => ?_
  simp only [Finset.mem_union, not_or] at h
  simp [Finmap.lookup_eq_none_of_notMem_keys h.left, Finmap.lookup_eq_none_of_notMem_keys h.right]

theorem fetch_changes_of_eq (h : (indexed before).fetch x = (indexed after).fetch x) :
    (changes before after loaded).fetch x = none :=
  lookup_sectionChanges.trans (if_pos h)

theorem fetch_changes_of_ne (h : (indexed before).fetch x ≠ (indexed after).fetch x) :
    (changes before after loaded).fetch x =
      some (.toLeave (expected loaded x.1 x.2) ((indexed after).fetch x)) :=
  lookup_sectionChanges.trans (if_neg h)

theorem effect_changes_of_eq (h : (indexed before).fetch x = (indexed after).fetch x) :
    Write.effect ((changes before after loaded).fetch x) = none := by
  rw [fetch_changes_of_eq h]
  rfl

theorem effect_changes_of_ne (h : (indexed before).fetch x ≠ (indexed after).fetch x) :
    Write.effect ((changes before after loaded).fetch x) = some ((indexed after).fetch x) := by
  rw [fetch_changes_of_ne h, Write.effect_toLeave]

theorem fetch_checks {reads : ReadSet} {writes : Batch Section.Value} {fenced : Bool} {r : Reads x.1}
    (hr : reads x.1 = some r) :
    (checks reads loaded writes fenced).fetch x =
      if x.2 ∈ (if r.whole then (loaded.rows x.1).keys else r.seen) then
        if (writes.fetch x).isSome ∨ fenced ∧ x = ⟨.scalar, .lease⟩ then
          none
        else
          some (.check (expected loaded x.1 x.2))
      else
        none := by
  rw [Sections.fetch, checks, hr]
  exact Finmap.lookup_build ..

theorem effect_checks {reads : ReadSet} {writes : Batch Section.Value} {fenced : Bool} :
    Write.effect ((checks reads loaded writes fenced).fetch x) = none := by
  cases hr : reads x.1
  case none =>
    rw [Sections.fetch, checks, hr]
    rfl
  case some r =>
    rw [fetch_checks hr]
    split_ifs <;> rfl

namespace Attempt

theorem fetch_batch : (t.batch after).fetch x =
    ((t.writes after).fetch x).or ((checks t.reads t.compared (t.writes after) t.fence.isSome).fetch x) :=
  Finmap.lookup_union ..

theorem fetch_batch_of_written {w : Write (x.1.Value x.2)} (h : (t.writes after).fetch x = some w) :
    (t.batch after).fetch x = some w := by
  rw [fetch_batch, h, Option.some_or]

-- What the batch checks is what the change read by key, or by reading its section as a whole.
theorem fetch_batch_of_read {r : Reads x.1} (h : (t.writes after).fetch x = none) (hr : t.reads x.1 = some r)
    (hk : if r.whole then (t.compared.rows x.1).lookup x.2 ≠ none else x.2 ∈ r.seen)
    (hl : t.fence.isSome → x ≠ ⟨.scalar, .lease⟩) :
    (t.batch after).fetch x = some (.check (expected t.compared x.1 x.2)) := by
  rw [fetch_batch, h, Option.none_or, fetch_checks hr, if_pos, if_neg]
  case hnc =>
    rw [h]
    rintro (hs | ⟨hf, hx⟩)
    · cases hs
    · exact hl hf hx
  case hc =>
    split at hk <;> rename_i hw
    · rw [if_pos hw]
      exact Finmap.mem_keys.mpr (not_imp_comm.mp Finmap.lookup_eq_none.mpr hk)
    · rw [if_neg hw]
      exact hk

-- Every record the batch names is expected at the revision it was loaded at.
theorem expected_batch {w : Write (x.1.Value x.2)} (h : (t.batch after).fetch x = some w) :
    w.expected = expected t.compared x.1 x.2 := by
  rw [fetch_batch] at h
  cases hw : (t.writes after).fetch x
  case some =>
    by_cases he : (indexed (assemble t.compared)).fetch x = (indexed after).fetch x
    case pos => rw [writes, fetch_changes_of_eq he] at hw; cases hw
    case neg =>
      rw [hw] at h
      rw [writes, fetch_changes_of_ne he] at hw
      cases h
      cases hw
      exact Write.expected_toLeave
  case none =>
    rw [hw, Option.none_or] at h
    cases hr : t.reads x.1
    case none =>
      rw [Sections.fetch, checks, hr] at h
      cases h
    case some r =>
      rw [fetch_checks hr] at h
      split_ifs at h <;> cases h <;> rfl

theorem effect_batch :
    Write.effect ((t.batch after).fetch x) = Write.effect ((t.writes after).fetch x) := by
  rw [fetch_batch]
  cases (t.writes after).fetch x
  case some => rfl
  case none => exact effect_checks

theorem rows_compared {s : Section} (h : s ≠ .archive) : t.compared.rows s = t.loaded.rows s := by
  unfold compared
  split
  case isFalse => rfl
  case isTrue  => simp [Loaded.rows, Function.update_of_ne h]

theorem expected_compared {s : Section} {k : s.Key} (h : s ≠ .archive) :
    expected t.compared s k = expected t.loaded s k := by
  unfold compared
  split
  case isFalse => rfl
  case isTrue  => simp [expected, Function.update_of_ne h]

end Attempt

theorem fencedBatch_ok {store' : Store} (h : fencedBatch store fence batch = .ok store') :
    (∀ f ∈ fence, f.Admits (leaseOf store)) ∧ store.Meets batch ∧ store' = store.apply batch := by
  unfold fencedBatch at h
  split at h
  case isTrue     => cases h
  case isFalse hf =>
    split at h
    case isFalse   => cases h
    case isTrue hm =>
      cases h
      exact ⟨not_not.mp hf, hm, rfl⟩

theorem Attempt.commit_eq_committed {store' : Store} :
    t.commit nowMs store = .committed result store' ↔
      ∃ after, t.change.exec t.history (assemble t.loaded) = .ok (result, after) ∧
        (∃ s, t.writes after s ≠ ∅) ∧
        fencedBatch store (t.fence.map (leaseFence · nowMs)) (t.batch after) = .ok store' := by
  unfold commit
  constructor
  case mp =>
    intro h
    split at h
    case h_1 => cases h
    case h_2 found after hx =>
      split at h
      case isTrue => cases h
      case isFalse hw =>
        split at h
        case h_1    => cases h
        case h_2 hb =>
          cases h
          exact ⟨after, hx, not_forall.mp hw, hb⟩
  case mpr =>
    rintro ⟨after, hx, hw, hb⟩
    rw [hx]
    dsimp only
    rw [if_neg (not_forall.mpr hw), hb]

namespace Attempt

-- The attempt was loaded, and its change run, on earlier states of the store.
structure Taken (t : Attempt α) (store : Store) : Prop where
  loaded  : ∃ old, Since old store ∧ t.loaded = sections old Section.isLoaded
  archive : ∃ old : Store, Since old store ∧ t.archive = old.rows .archive

theorem Taken.start {write : FencedWrite α} : (Attempt.start write store).Taken store :=
  ⟨⟨store, .refl, rfl⟩, ⟨store, .refl, rfl⟩⟩

theorem Taken.hydrate (h : t.Taken store) : (t.hydrate store).Taken store :=
  ⟨h.loaded, ⟨store, .refl, rfl⟩⟩

theorem Taken.apply {batch : Batch Section.Value} (h : t.Taken store) : t.Taken (store.apply batch) := by
  obtain ⟨⟨old, ho, hl⟩, ⟨old', ho', ha⟩⟩ := h
  exact ⟨⟨old, ho.apply, hl⟩, ⟨old', ho'.apply, ha⟩⟩

-- A record whose revision the batch asks for is the record that was loaded.
theorem fetch_of_expected (ht : t.Taken store) (hm : store.Meets (t.batch after)) {s : Section} {k : s.Key}
    {w : Write (s.Value k)} (hs : s.isLoaded) (hw : (t.batch after).fetch ⟨s, k⟩ = some w)
    (he : w.expected = expected t.compared s k) : (loadedDocument store).fetch ⟨s, k⟩ = (assemble t.loaded).fetch ⟨s, k⟩ := by
  obtain ⟨old, ho, hl⟩ := ht.loaded
  have hn : s ≠ .archive := by
    rintro rfl
    cases hs
  have hr : revisionOf (store.rows.fetch ⟨s, k⟩) = revisionOf (old.rows.fetch ⟨s, k⟩) := by
    refine hm.expected hw ?_
    rw [he, expected_compared hn, hl]
    simp [expected, sections, hs, Sections.fetch]
  have hf : (store.rows s).lookup k = (old.rows s).lookup k := ho.fetch_eq hr
  refine fetch_assemble_congr ?_
  simp [hl, hs, hf]

theorem assemble_compared (h : x.1 ≠ .archive) :
    (assemble t.compared).fetch x = (assemble t.loaded).fetch x :=
  fetch_assemble_congr (by rw [rows_compared h])

-- A write starts from a document without its archive.
theorem fetch_loadedDocument_of_unloaded (h : ¬(x.1.isLoaded ∧ x.1 ≠ .byName)) :
    (loadedDocument store).fetch x = none := by
  obtain ⟨s, k⟩ := x
  cases s
  case archive =>
    change ((sections store Section.isLoaded).values .archive).lookup k = none
    rw [lookup_values, rows_sections]
    rfl
  case byName | archivedNames => rfl
  all_goals exact absurd ⟨rfl, by simp⟩ h

theorem Taken.loadedDocument (h : t.Taken store) : ∃ old, Since old store ∧ assemble t.loaded = loadedDocument old := by
  obtain ⟨old, ho, hl⟩ := h.loaded
  exact ⟨old, ho, by rw [hl]; rfl⟩

theorem ne_archive_of_loaded {s : Section} (h : s.isLoaded) : s ≠ .archive := by
  rintro rfl
  cases h

theorem document_of_loaded {s : Section} (h : s.isLoaded ∧ s ≠ .byName) : s.IsDocument := by
  refine ⟨h.right, ?_⟩
  rintro rfl
  cases h.left

-- What the change wrote is in its batch.
theorem fetch_writes {s : Section} {k : s.Key} (h : s.isLoaded ∧ s ≠ .byName)
    (he : (assemble t.loaded).fetch ⟨s, k⟩ ≠ after.fetch ⟨s, k⟩) :
    (t.writes after).fetch ⟨s, k⟩ = some (.toLeave (expected t.compared s k) (after.fetch ⟨s, k⟩)) := by
  have hi (d : Document) : (indexed d).fetch ⟨s, k⟩ = d.fetch ⟨s, k⟩ := by
    simp only [Sections.fetch, indexed_document (document_of_loaded h)]
  have hc : (assemble t.compared).fetch ⟨s, k⟩ = (assemble t.loaded).fetch ⟨s, k⟩ :=
    assemble_compared (ne_archive_of_loaded h.left)
  rw [writes, fetch_changes_of_ne (by rwa [hi, hi, hc]), hi]

-- So is a record the change wrote,
theorem fetch_of_written (ht : t.Taken store) (hm : store.Meets (t.batch after)) {s : Section} {k : s.Key}
    (h : s.isLoaded ∧ s ≠ .byName) (he : (assemble t.loaded).fetch ⟨s, k⟩ ≠ after.fetch ⟨s, k⟩) :
    (Fencing.loadedDocument store).fetch ⟨s, k⟩ = (assemble t.loaded).fetch ⟨s, k⟩ :=
  fetch_of_expected ht hm h.left (fetch_batch_of_written (fetch_writes h he)) Write.expected_toLeave

-- and one it read, unless it was not there when its section was read as a whole, or a fence stands for it.
theorem fetch_of_read (ht : t.Taken store) (hm : store.Meets (t.batch after)) {s : Section} {k : s.Key}
    {r : Reads s} (h : s.isLoaded ∧ s ≠ .byName) (hr : t.reads s = some r)
    (hk : if r.whole then (t.loaded.rows s).lookup k ≠ none else k ∈ r.seen)
    (hl : t.fence.isSome → (⟨s, k⟩ : (s : Section) × s.Key) ≠ ⟨.scalar, .lease⟩) :
    (Fencing.loadedDocument store).fetch ⟨s, k⟩ = (assemble t.loaded).fetch ⟨s, k⟩ := by
  by_cases he : (assemble t.loaded).fetch ⟨s, k⟩ = after.fetch ⟨s, k⟩
  case neg => exact fetch_of_written ht hm h he
  case pos =>
    have hi (d : Document) : (indexed d).fetch ⟨s, k⟩ = d.fetch ⟨s, k⟩ := by
      simp only [Sections.fetch, indexed_document (document_of_loaded h)]
    have hn := ne_archive_of_loaded h.left
    have hc : (assemble t.compared).fetch ⟨s, k⟩ = (assemble t.loaded).fetch ⟨s, k⟩ := assemble_compared hn
    have hw : (t.writes after).fetch ⟨s, k⟩ = none := fetch_changes_of_eq (by rw [hi, hi, hc, he])
    exact fetch_of_expected ht hm h.left (fetch_batch_of_read hw hr (rows_compared hn ▸ hk) hl) rfl

theorem fetch_apply {s : Section} {k : s.Key} (h : s.isLoaded ∧ s ≠ .byName) :
    ((store.apply (t.batch after)).rows s).lookup k =
      if (assemble t.loaded).fetch ⟨s, k⟩ = after.fetch ⟨s, k⟩ then (store.rows s).lookup k
      else (after.fetch ⟨s, k⟩).map (⟨store.revision + 1, ·⟩) := by
  have hi (d : Document) : (indexed d).fetch ⟨s, k⟩ = d.fetch ⟨s, k⟩ := by
    simp only [Sections.fetch, indexed_document (document_of_loaded h)]
  have hc : (assemble t.compared).fetch ⟨s, k⟩ = (assemble t.loaded).fetch ⟨s, k⟩ :=
    assemble_compared (ne_archive_of_loaded h.left)
  have hf : ((store.apply (t.batch after)).rows s).lookup k = _ := Store.fetch_leave (x := ⟨s, k⟩)
  rw [hf, effect_batch]
  split
  case isTrue he =>
    rw [writes, effect_changes_of_eq (by rw [hi, hi, hc, he])]
    rfl
  case isFalse he =>
    rw [writes, effect_changes_of_ne (by rwa [hi, hi, hc]), hi]
    rfl

-- A record the change left as it was is left alone on the store.
theorem loadedDocument_apply_of_eq {s : Section} {k : s.Key} (h : s.isLoaded ∧ s ≠ .byName)
    (he : (assemble t.loaded).fetch ⟨s, k⟩ = after.fetch ⟨s, k⟩) :
    (Fencing.loadedDocument (store.apply (t.batch after))).fetch ⟨s, k⟩ = (Fencing.loadedDocument store).fetch ⟨s, k⟩ := by
  refine fetch_assemble_congr ?_
  simp only [rows_sections, h.left, if_true]
  rw [fetch_apply h, if_pos he]

-- A record the change wrote is what it wrote.
theorem loadedDocument_apply_of_ne {s : Section} {k : s.Key} {v : s.Value k} (h : s.isLoaded ∧ s ≠ .byName)
    (hl : (⟨s, k⟩ : (s : Section) × s.Key) ≠ ⟨.scalar, .layout⟩)
    (he : (assemble t.loaded).fetch ⟨s, k⟩ ≠ after.fetch ⟨s, k⟩) (hv : after.fetch ⟨s, k⟩ = some v) :
    (Fencing.loadedDocument (store.apply (t.batch after))).fetch ⟨s, k⟩ = some v := by
  have hr : ((sections (store.apply (t.batch after)) Section.isLoaded).rows s).lookup k =
      some ⟨store.revision + 1, v⟩ := by
    rw [rows_sections, if_pos h.left, fetch_apply h, if_neg he, hv]
    rfl
  exact fetch_assemble_of_some (document_of_loaded h) hl hr

-- The scalars stay tracked, and what was read of them stays read.
theorem seen_readSet {history : History} {p : Change α} {d : Document} {reads : ReadSet} {r : Reads .scalar}
    (hr : reads .scalar = some r) : ∃ r', readSet history p d reads .scalar = some r' ∧ r.seen ⊆ r'.seen := by
  induction p generalizing d reads r
  case done | refuse => exact ⟨r, hr, subset_rfl⟩
  case ask hi => exact hi _ hr
  case get s k next hi =>
    by_cases hs : s = .scalar
    case pos =>
      subst hs
      have hsee : reads.see .scalar k .scalar = some { r with seen := insert k r.seen } := by
        simp [ReadSet.see, hr]
      obtain ⟨r', hr', hsub⟩ := hi _ hsee
      exact ⟨r', hr', (Finset.subset_insert ..).trans hsub⟩
    case neg => exact hi _ (by simpa [ReadSet.see, Ne.symm hs] using hr)
  case items s next hi =>
    by_cases hs : s = .scalar
    case pos =>
      subst hs
      have hsee : reads.seeAll .scalar .scalar = some { r with whole := true } := by
        simp [ReadSet.seeAll, hr]
      obtain ⟨r', hr', hsub⟩ := hi _ hsee
      exact ⟨r', hr', hsub⟩
    case neg => exact hi _ (by simpa [ReadSet.seeAll, Ne.symm hs] using hr)
  case update hi => exact hi hr
  case remove hi => exact hi hr
  case assign s rows next hi =>
    refine hi ?_
    unfold ReadSet.drop
    split
    case isTrue => exact hr
    case isFalse hs => simpa [Ne.symm hs] using hr

end Attempt
end Fencing
