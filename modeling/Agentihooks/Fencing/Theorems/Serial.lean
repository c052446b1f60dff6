import Agentihooks.Execution.Registry
import Agentihooks.Fencing.Write
import Agentihooks.Fencing.Theorems.Records
import Mathlib.Data.List.Permutation

-- When the writers of the per record layout are serializable: a commit takes effect as if its write had run
-- alone on the records it finds, unless a record it was not told to check has changed since the load.

namespace Fencing

open Program Versioned

variable {α : Type} {t : Attempt α} {store store' old : Store} {after : Document} {result : α} {nowMs : Int}
variable {x : (s : Section) × s.Key} {w : Writers α} {es : List (Writers.Event α)}

namespace Attempt

-- The records an attempt takes as they were at its load, without a check of its own: the lease, which its
-- fence stands for; the records of a section it replaced; those that were not there when it read their
-- section as a whole; and those it never read.
inductive Unchecked (t : Attempt α) : (s : Section) × s.Key → Prop
  | lease (h : t.fence.isSome) : Unchecked t ⟨.scalar, .lease⟩
  | replaced {x : (s : Section) × s.Key} (h : t.reads x.1 = none) : Unchecked t x
  | inserted {x : (s : Section) × s.Key} {r : Reads x.1} (hr : t.reads x.1 = some r) (hw : r.whole)
      (hn : (t.loaded.rows x.1).lookup x.2 = none) : Unchecked t x
  | unread {x : (s : Section) × s.Key} {r : Reads x.1} (hr : t.reads x.1 = some r) (hw : ¬r.whole)
      (hn : x.2 ∉ r.seen) : Unchecked t x

-- The change writes an execution that has the name, before or after.
def Names (t : Attempt α) (after : Document) (name : String) : Prop :=
  ∃ id, (assemble t.loaded .executions).lookup id ≠ (after .executions).lookup id ∧
    ∃ row : AgentRecord, row.name = name ∧
      ((assemble t.loaded .executions).lookup id = some row ∨ (after .executions).lookup id = some row)

-- What has to be on `store` as the attempt found it, where its change leads to `after`. The archive counts
-- as a whole where it was recorded, and by the rows that were looked up otherwise; the executions under a
-- name count where the change moves the index of the name.
structure Undisturbed (t : Attempt α) (after : Document) (store : Store) : Prop where
  records : ∀ x ∈ t.change.footprint t.history (assemble t.loaded), t.Unchecked x →
    (assemble t.loaded).fetch x = after.fetch x → (loadedDocument store).fetch x = (assemble t.loaded).fetch x
  archive : t.recorded → ∀ id, (t.archive.lookup id).map Record.value = (after .archive).lookup id →
    ((store.rows .archive).lookup id).map Record.value = (t.archive.lookup id).map Record.value
  lookups : ∀ id, .archived id ∈ t.change.questions t.history (assemble t.loaded) →
    ((store.rows .archive).lookup id).map Record.value = (t.archive.lookup id).map Record.value
  names   : ∀ name, t.Names after name → ∀ id,
    ((loadedDocument store .executions).lookup id).filter (·.name = name) =
      ((assemble t.loaded .executions).lookup id).filter (·.name = name)

-- Whatever the change's outcome depends on is on the store as it was loaded.
theorem footprint_agreeing (ht : t.Taken store) (hm : store.Meets (t.batch after))
    (hu : t.Undisturbed after store) :
    t.change.footprint t.history (assemble t.loaded) ⊆ Agreeing (assemble t.loaded) (Fencing.loadedDocument store) := by
  rintro ⟨s, k⟩ hx
  suffices h : (Fencing.loadedDocument store).fetch ⟨s, k⟩ = (assemble t.loaded).fetch ⟨s, k⟩ from h.symm
  by_cases hs : s.isLoaded ∧ s ≠ .byName
  case neg =>
    obtain ⟨old, _, hl⟩ := ht.loadedDocument
    rw [hl, fetch_loadedDocument_of_unloaded hs, fetch_loadedDocument_of_unloaded hs]
  case pos =>
    by_cases he : (assemble t.loaded).fetch ⟨s, k⟩ = after.fetch ⟨s, k⟩
    case neg => exact fetch_of_written ht hm hs he
    case pos =>
      by_cases hn : t.Unchecked ⟨s, k⟩
      case pos => exact hu.records _ hx hn he
      case neg =>
        have ⟨r, hr⟩ : ∃ r, t.reads s = some r := Option.ne_none_iff_exists'.mp fun h => hn (.replaced h)
        have hk : if r.whole then (t.loaded.rows s).lookup k ≠ none else k ∈ r.seen := by
          split
          case isTrue h  => exact fun hl => hn (.inserted hr h hl)
          case isFalse h => exact not_not.mp fun hl => hn (.unread hr h hl)
        have hl : t.fence.isSome → (⟨s, k⟩ : (s : Section) × s.Key) ≠ ⟨.scalar, .lease⟩ := by
          intro hf hx
          exact hn (hx ▸ .lease hf)
        exact fetch_of_read ht hm hs hr hk hl

theorem meets_start {write : FencedWrite α} : store.Meets ((Attempt.start write store).batch after) := by
  rintro s ⟨k, w, hw, n, hn, hne⟩
  refine hne ?_
  have he := expected_batch (x := ⟨s, k⟩) hw
  rw [he] at hn
  unfold expected compared at hn
  split at hn
  case isTrue =>
    by_cases hs : s = .archive
    case pos =>
      subst hs
      simp [Attempt.start] at hn
      exact hn.symm
    case neg =>
      rw [Function.update_of_ne hs] at hn
      simp [Attempt.start, sections] at hn
      exact hn.right.symm
  case isFalse =>
    simp [Attempt.start, sections] at hn
    exact hn.right.symm

-- What the change leads to on the store it reaches.
def merged (t : Attempt α) (after : Document) (store : Store) : Document :=
  Sections.merge (Fencing.loadedDocument store) (assemble t.loaded) after

theorem fetch_merged_of_eq (h : (assemble t.loaded).fetch x = after.fetch x) :
    (t.merged after store).fetch x = (Fencing.loadedDocument store).fetch x :=
  (Sections.fetch_merge ..).trans (if_pos h)

theorem fetch_merged_of_ne (h : (assemble t.loaded).fetch x ≠ after.fetch x) :
    (t.merged after store).fetch x = after.fetch x :=
  (Sections.fetch_merge ..).trans (if_neg h)

-- Two changes of a record, from `b` to `a` and from `b'` to `a'`, are both none or one and the same.
def Same {V : Type} (b a b' a' : Option V) : Prop :=
  b = a ∧ b' = a' ∨ b ≠ a ∧ b' = b ∧ a' = a

theorem Same.of_eq {V : Type} {b a b' a' : Option V} (hb : b' = b) (ha : a' = a) : Same b a b' a' := by
  by_cases h : b = a
  · exact .inl ⟨h, hb.trans (h.trans ha.symm)⟩
  · exact .inr ⟨h, hb, ha⟩

theorem Same.newest {b a b' a' : Dict String AgentRecord} {p : AgentRecord → Prop} [DecidablePred p]
    {generation : AgentRecord → ℕ} (hs : ∀ id, Same (b.lookup id) (a.lookup id) (b'.lookup id) (a'.lookup id))
    (hp : (∃ id, b.lookup id ≠ a.lookup id ∧ ∃ row, p row ∧ (b.lookup id = some row ∨ a.lookup id = some row)) →
      ∀ id, (b'.lookup id).filter p = (b.lookup id).filter p) :
    Same (b.newest p generation) (a.newest p generation) (b'.newest p generation) (a'.newest p generation) := by
  by_cases h : ∃ id, b.lookup id ≠ a.lookup id ∧ ∃ row, p row ∧ (b.lookup id = some row ∨ a.lookup id = some row)
  case pos =>
    refine .of_eq (Finmap.newest_congr (hp h)) (Finmap.newest_congr fun id => ?_)
    rcases hs id with ⟨he, he'⟩ | ⟨_, _, he⟩
    · rw [← he, ← he', hp h]
    · rw [he]
  case neg =>
    have hn (id : String) (hne : b.lookup id ≠ a.lookup id) :
        (b.lookup id).filter p = none ∧ (a.lookup id).filter p = none := by
      simp only [Option.filter_eq_none_iff]
      exact ⟨fun row hr hrow => h ⟨id, hne, row, of_decide_eq_true hrow, .inl hr⟩,
        fun row hr hrow => h ⟨id, hne, row, of_decide_eq_true hrow, .inr hr⟩⟩
    refine .inl ⟨Finmap.newest_congr fun id => ?_, Finmap.newest_congr fun id => ?_⟩
    · by_cases he : b.lookup id = a.lookup id
      · rw [he]
      · rw [(hn id he).left, (hn id he).right]
    · rcases hs id with ⟨_, he⟩ | ⟨hne, hb, ha⟩
      · rw [he]
      · rw [hb, ha, (hn id hne).left, (hn id hne).right]

section Moves

variable (hd : t.change.footprint t.history (assemble t.loaded) ⊆
  Agreeing (assemble t.loaded) (Fencing.loadedDocument store))
variable (hx : t.change.exec t.history (assemble t.loaded) = .ok (result, after))
include hd hx

theorem same_record : Same ((assemble t.loaded).fetch x) (after.fetch x)
    ((Fencing.loadedDocument store).fetch x) ((t.merged after store).fetch x) := by
  by_cases he : (assemble t.loaded).fetch x = after.fetch x
  case pos => exact .inl ⟨he, (fetch_merged_of_eq he).symm⟩
  case neg =>
    have hf : x ∈ t.change.footprint t.history (assemble t.loaded) := by
      by_contra hn
      exact he (exec_frame hx hn).symm
    exact .inr ⟨he, (hd hf).symm, fetch_merged_of_ne he⟩

-- The index of a name moves alike where the executions under the name are as they were at the load.
theorem same_heads (hu : t.Undisturbed after store) (name : String) :
    Same ((heads (assemble t.loaded .executions)).lookup name) ((heads (after .executions)).lookup name)
      ((heads (Fencing.loadedDocument store .executions)).lookup name)
      ((heads (t.merged after store .executions)).lookup name) := by
  simp only [lookup_heads]
  exact Same.newest (fun id => same_record (x := ⟨.executions, id⟩) hd hx) (hu.names name)

end Moves

theorem assemble_compared_section {s : Section} (h : s ≠ .archive) :
    assemble t.compared s = assemble t.loaded s := by
  refine Finmap.ext_lookup fun k => ?_
  have hk : (assemble t.compared).fetch ⟨s, k⟩ = (assemble t.loaded).fetch ⟨s, k⟩ := assemble_compared h
  exact hk

theorem assemble_start {write : FencedWrite α} :
    assemble (Attempt.start write store).loaded = Fencing.loadedDocument store :=
  rfl

theorem lookup_archive_of_recorded {id : String} (hr : t.recorded) :
    (assemble t.compared .archive).lookup id = (t.archive.lookup id).map Record.value := by
  refine lookup_values.trans ?_
  rw [compared, if_pos hr]
  simp [Loaded.rows]

theorem archive_of_not_recorded (ht : t.Taken store) (hr : ¬t.recorded) : assemble t.compared .archive = ∅ := by
  obtain ⟨old, _, hl⟩ := ht.loaded
  refine Finmap.ext_lookup fun id => ?_
  rw [compared, if_neg hr, hl]
  exact fetch_loadedDocument_of_unloaded (x := ⟨.archive, id⟩) (by simp [Section.isLoaded])

-- The archive a write is compared with is the same on the store it reaches.
theorem archive_found (ht : t.Taken store) (hm : store.Meets (t.batch after)) (hu : t.Undisturbed after store) :
    assemble (Attempt.start t.toFencedWrite store).compared .archive = assemble t.compared .archive := by
  by_cases hr : t.recorded
  case neg => rw [archive_of_not_recorded ht hr, archive_of_not_recorded .start hr]
  case pos =>
    refine Finmap.ext_lookup fun id => ?_
    have hs : (assemble (Attempt.start t.toFencedWrite store).compared .archive).lookup id =
        ((store.rows .archive).lookup id).map Record.value := lookup_archive_of_recorded hr
    refine hs.trans (Eq.trans ?_ (lookup_archive_of_recorded hr).symm)
    by_cases he : (t.archive.lookup id).map Record.value = (after .archive).lookup id
    case pos => exact hu.archive hr id he
    case neg =>
      have hw : (t.writes after).fetch ⟨.archive, id⟩ = some _ :=
        fetch_changes_of_ne fun h => he ((lookup_archive_of_recorded hr).symm.trans h)
      have hn : expected t.compared .archive id = some (revisionOf (t.archive.lookup id)) := by
        simp [expected, compared, hr]
      obtain ⟨old, ho, ha⟩ := ht.archive
      have hv : revisionOf (store.rows.fetch ⟨.archive, id⟩) = revisionOf (old.rows.fetch ⟨.archive, id⟩) := by
        rw [hm.expected (fetch_batch_of_written hw) (Write.expected_toLeave.trans hn), ha]
        rfl
      have hf : (store.rows .archive).lookup id = (old.rows .archive).lookup id := ho.fetch_eq hv
      rw [hf, ha]

theorem archive_merged (ht : t.Taken store) : t.merged after store .archive = after .archive := by
  obtain ⟨old, _, hl⟩ := ht.loadedDocument
  refine Finmap.ext_lookup fun id => ?_
  have hn (store : Store) : (Fencing.loadedDocument store).fetch ⟨.archive, id⟩ = none :=
    fetch_loadedDocument_of_unloaded (by simp [Section.isLoaded])
  have hf : (t.merged after store).fetch ⟨.archive, id⟩ = after.fetch ⟨.archive, id⟩ := by
    by_cases he : (assemble t.loaded).fetch ⟨.archive, id⟩ = after.fetch ⟨.archive, id⟩
    case neg => exact fetch_merged_of_ne he
    case pos =>
      rw [fetch_merged_of_eq he, hn]
      rw [hl, hn] at he
      exact he
  exact hf

theorem same_indexed (ht : t.Taken store) (hm : store.Meets (t.batch after)) (hu : t.Undisturbed after store)
    (hx : t.change.exec t.history (assemble t.loaded) = .ok (result, after)) :
    Same ((indexed (assemble t.compared)).fetch x) ((indexed after).fetch x)
      ((indexed (assemble (Attempt.start t.toFencedWrite store).compared)).fetch x)
      ((indexed (t.merged after store)).fetch x) := by
  have hd := footprint_agreeing ht hm hu
  have ha := archive_found ht hm hu
  have hg : t.merged after store .archive = after .archive := archive_merged ht
  obtain ⟨s, k⟩ := x
  by_cases hs : s = .archive ∨ s = .archivedNames
  case pos =>
    rcases hs with rfl | rfl
    · exact .of_eq (by simp only [Sections.fetch, indexed, ha]) (by simp only [Sections.fetch, indexed, hg])
    · exact .of_eq (by simp only [Sections.fetch, indexed, ha]) (by simp only [Sections.fetch, indexed, hg])
  case neg =>
    by_cases hb : s = .byName
    case pos =>
      subst hb
      have he : Section.executions ≠ .archive := by simp
      simp only [Sections.fetch, indexed, assemble_compared_section he, assemble_start]
      exact same_heads hd hx hu k
    case neg =>
      have hn : s ≠ .archive := fun h => hs (.inl h)
      have hi (d : Document) : indexed d s = d s := indexed_document ⟨hb, fun h => hs (.inr h)⟩ d
      simp only [Sections.fetch, hi, assemble_compared_section hn, assemble_start]
      exact same_record (x := ⟨s, k⟩) hd hx

theorem Same.effect_changes {before before' after' : Document} {loaded loaded' : Loaded}
    (h : Same ((indexed before).fetch x) ((indexed after).fetch x) ((indexed before').fetch x)
      ((indexed after').fetch x)) :
    Write.effect ((changes before' after' loaded').fetch x) = Write.effect ((changes before after loaded).fetch x) := by
  rcases h with ⟨he, he'⟩ | ⟨hne, hb, ha⟩
  · rw [effect_changes_of_eq he, effect_changes_of_eq he']
  · rw [effect_changes_of_ne hne, effect_changes_of_ne (by rwa [hb, ha]), ha]

-- A batch writes something if it has an effect on some record.
theorem exists_writes_iff : (∃ s, t.writes after s ≠ ∅) ↔ ∃ x, Write.effect ((t.writes after).fetch x) ≠ none := by
  constructor
  case mp =>
    rintro ⟨s, hs⟩
    by_contra hn
    simp only [not_exists, not_not] at hn
    refine hs (Finmap.ext_lookup fun k => ?_)
    by_cases he : (indexed (assemble t.compared)).fetch ⟨s, k⟩ = (indexed after).fetch ⟨s, k⟩
    case pos => exact fetch_changes_of_eq (x := ⟨s, k⟩) he
    case neg =>
      have hk := hn ⟨s, k⟩
      rw [writes, effect_changes_of_ne he] at hk
      cases hk
  case mpr =>
    rintro ⟨x, hx⟩
    refine ⟨x.1, fun hs => hx ?_⟩
    rw [Sections.fetch, hs]
    rfl

-- A commit that is not disturbed is the commit of the write alone on the store it reaches.
theorem alone_of_commit (ht : t.Taken store)
    (hu : ∀ result after, t.change.exec t.history (assemble t.loaded) = .ok (result, after) →
      t.Undisturbed after store)
    (h : t.commit nowMs store = .committed result store') :
    alone t.toFencedWrite nowMs store = .committed result store' := by
  obtain ⟨after, hx, hw, hb⟩ := commit_eq_committed.mp h
  obtain ⟨hf, hm, rfl⟩ := fencedBatch_ok hb
  replace hu := hu _ _ hx
  have hq : t.change.questions t.history (assemble t.loaded) ⊆
      { q | t.history q = (Attempt.start t.toFencedWrite store).history q } := by
    intro q hq
    cases q
    case referenced | external => rfl
    case archived id => exact congrArg Except.ok (hu.lookups id hq).symm
  have hx' := exec_eq_merge hq (footprint_agreeing ht hm hu) hx
  have he (x : (s : Section) × s.Key) :
      Write.effect (((Attempt.start t.toFencedWrite store).writes (t.merged after store)).fetch x) =
        Write.effect ((t.writes after).fetch x) := (same_indexed ht hm hu hx).effect_changes
  have hw' : ∃ s, (Attempt.start t.toFencedWrite store).writes (t.merged after store) s ≠ ∅ := by
    rw [exists_writes_iff] at hw ⊢
    simpa only [he] using hw
  have hb' : fencedBatch store (t.fence.map (leaseFence · nowMs))
      ((Attempt.start t.toFencedWrite store).batch (t.merged after store)) = .ok (store.apply (t.batch after)) := by
    rw [fencedBatch, if_neg (not_not.mpr hf), if_pos meets_start]
    refine congrArg Except.ok (Store.apply_congr fun x => ?_)
    rw [effect_batch, effect_batch, he]
  exact commit_eq_committed.mpr ⟨_, hx', hw', hb'⟩

end Attempt

theorem Serial.concat {c : Committed α} {cs : List (Committed α)} {before : Store} (h : Serial before cs store)
    (hc : alone c.write c.nowMs store = .committed c.result store') : Serial before (cs ++ [c]) store' := by
  induction cs generalizing before
  case nil =>
    cases h
    exact ⟨store', hc, rfl⟩
  case cons hi =>
    obtain ⟨next, hn, h⟩ := h
    exact ⟨next, hn, hi h⟩

namespace Writers

-- What a commit must not find: a record changed that its attempt took as it was.
def Undisturbed (w : Writers α) : Event α → Prop
  | .commit writer _ => ∀ t ∈ w.attempts writer, ∀ result after,
    t.change.exec t.history (assemble t.loaded) = .ok (result, after) → t.Undisturbed after w.store
  | _ => True

-- What holds of the writers after any run: the attempts under way saw earlier states, and the log is serial.
structure Sound (before : Store) (w : Writers α) : Prop where
  taken  : ∀ i, ∀ t ∈ w.attempts i, t.Taken w.store
  serial : Serial before w.log w.store

theorem Sound.leave {before : Store} (h : Sound before w) {i : ℕ} {attempt : Option (Attempt α)}
    (ht : ∀ t ∈ attempt, t.Taken w.store) : Sound before (w.leave i attempt) where
  taken  := fun j t hj => by
    by_cases he : j = i
    case pos =>
      subst he
      exact ht t (by simpa [Writers.leave] using hj)
    case neg => exact h.taken j t (by simpa [Writers.leave, he] using hj)
  serial := h.serial

theorem Sound.step {before : Store} (h : Sound before w) {e : Event α} (hu : w.Undisturbed e) :
    Sound before (w.step e) := by
  cases e
  case load i write =>
    refine h.leave fun t ht => ?_
    cases ht
    exact .start
  case run i =>
    refine h.leave fun t ht => ?_
    obtain ⟨t, hi, rfl⟩ := Option.map_eq_some_iff.mp ht
    exact (h.taken i t hi).hydrate
  case commit i nowMs =>
    unfold Writers.step
    dsimp only
    split
    case h_1 => exact h
    case h_2 t ht =>
      have hl : Sound before (w.leave i none) := h.leave (by simp)
      split
      case h_2 => exact hl
      case h_1 result store hc =>
        have ha := Attempt.alone_of_commit (h.taken i t ht) (hu t ht) hc
        obtain ⟨_, _, _, hb⟩ := Attempt.commit_eq_committed.mp hc
        obtain ⟨_, _, rfl⟩ := fencedBatch_ok hb
        exact ⟨fun j t hj => (hl.taken j t hj).apply, h.serial.concat ha⟩

end Writers
end Fencing
