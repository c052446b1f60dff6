import Agentihooks.Execution.Registry
import Agentihooks.Execution.System

-- What each change of the registry does when it is accepted, on a document that keeps its whole archive
-- inline. Later proofs use these instead of the changes themselves.

namespace Execution

open Program Fencing Fencing.Change

variable {agent current row : AgentRecord} {executions : Rows} {seat key uuid previousId : String}
variable {d d' : Document} {epoch : Option Int} {listed : Finset String}

theorem occupant_eq_some :
    occupant executions seat = some row ↔
      ∃ k, executions.lookup k = some row ∧ row.seat = seat ∧
        ∀ j w, executions.lookup j = some w → w.seat = seat →
          toLex (w.generation, j) ≤ toLex (row.generation, k) := by
  simp only [occupant, Option.bind_eq_some_iff, Finmap.newest_eq_some]
  constructor
  case mp =>
    intro ⟨k, ⟨v, hv, hs, hm⟩, hk⟩
    obtain rfl : v = row := Option.some.inj (hv.symm.trans hk)
    exact ⟨k, hv, hs, hm⟩
  case mpr =>
    intro ⟨k, hk, hs, hm⟩
    exact ⟨k, ⟨row, hk, hs, hm⟩, hk⟩

theorem occupant_eq_none :
    occupant executions seat = none ↔ ∀ k w, executions.lookup k = some w → w.seat ≠ seat := by
  unfold occupant
  cases h : executions.newest (·.seat = seat) (·.generation)
  case none => simpa using Finmap.newest_eq_none.mp h
  case some k =>
    obtain ⟨v, hv, hs, _⟩ := Finmap.newest_eq_some.mp h
    simp [hv]
    exact ⟨k, v, hv, hs⟩

-- No other execution carries the Pod UID of `agent`.
def UidFree (d : Document) (agent : AgentRecord) : Prop :=
  ∀ uid ∈ agent.runtimeTarget.podUid, ¬(recordsOf (d .executions) (d .archive)).Exists fun _ row =>
    row.executionId ≠ agent.executionId ∧ row.runtimeTarget.lookup "pod_uid" = some uid

instance : Decidable (UidFree d agent) := by
  unfold UidFree
  infer_instance

@[simp]
theorem exec_checkUid {α : Type} (f : Unit → Change α) :
    (checkUid agent >>= f).exec History.inline d =
      if UidFree d agent then (f ()).exec History.inline d else .error usedUid := by
  rcases Option.eq_none_or_eq_some agent.runtimeTarget.podUid with h | ⟨uid, h⟩
  · simp [checkUid, UidFree, h]
  · simp [checkUid, UidFree, h, History.inline]

theorem admit_ok {r : AgentRecord × Option AgentRecord}
    (h : (admitAgent agent previousId uuid epoch).exec History.inline d = .ok (r, d')) :
    r = (admitted agent (occupant (d .executions) agent.seat) uuid, occupant (d .executions) agent.seat) ∧
      (¬(recordsOf (d .executions) (d .archive)).Exists fun _ row =>
        row.name = agent.name ∧ row.seat ≠ agent.seat) ∧
      UidFree d agent ∧ (d .executions).lookup ("exe-" ++ uuid) = none ∧
      d' .executions = .singleton ("exe-" ++ uuid) r.1 ∪ d .executions ∧ d' .archive = d .archive := by
  simp [admitAgent] at h
  obtain ⟨_, hn, hu, ht, h⟩ := h
  cases epoch
  case none =>
    cases h
    exact ⟨rfl, by simpa using hn, hu, ht, by simp; rfl, by simp⟩
  case some =>
    cases h
    refine ⟨rfl, by simpa using hn, hu, ht, by simp; rfl, by simp⟩

-- Every current row stays where it is and becomes `f` of itself.
structure Rewrites (d d' : Document) (f : String → AgentRecord → AgentRecord) : Prop where
  executions : ∀ k, (d' .executions).lookup k = ((d .executions).lookup k).map (f k)
  archive    : d' .archive = d .archive

theorem Rewrites.refl : Rewrites d d fun _ row => row :=
  ⟨fun k => by simp, rfl⟩

-- Every row is filed under its own identity.
def Own (rows : Rows) : Prop :=
  ∀ k row, rows.lookup k = some row → row.executionId = k

theorem Own.lookup_occupant (ho : Own executions) (h : occupant executions seat = some row) :
    executions.lookup row.executionId = some row := by
  obtain ⟨k, hk, _⟩ := occupant_eq_some.mp h
  rwa [ho k row hk]

theorem occupant_seat (h : occupant executions seat = some row) : row.seat = seat := by
  obtain ⟨k, _, hs, _⟩ := occupant_eq_some.mp h
  exact hs

-- A single row is rewritten.
theorem rewrites_put {new : AgentRecord} (hk : (d .executions).lookup key = some row) :
    Rewrites d (d.put .executions key new) fun k old => if k = key then new else old := by
  refine ⟨fun k => ?_, by simp⟩
  by_cases h : k = key
  case pos => subst h; simp [hk]
  case neg => simp [h]

@[simp]
theorem written_executionId : (written agent current).executionId = agent.executionId := by
  unfold written keepBinding keepFinished
  split <;> split <;> rfl

theorem update_ok {r : AgentRecord × AgentRecord} (ho : Own (d .executions))
    (h : (update agent).exec History.inline d = .ok (r, d')) :
    ∃ current, occupant (d .executions) agent.seat = some current ∧ Identical agent current ∧
      RuntimeTarget.checkBinding current.runtimeTarget (written agent current).runtimeTarget = .ok () ∧
      UidFree d (written agent current) ∧ r = (written agent current, current) ∧
      Rewrites d d' fun k old => if k = agent.executionId then written agent current else old := by
  unfold update at h
  rcases hc : occupant (d .executions) agent.seat with _ | current
  · simp [hc] at h
  · cases hb : RuntimeTarget.checkBinding current.runtimeTarget (written agent current).runtimeTarget
    case error => simp [hc, hb] at h
    case ok    =>
      simp [hc, hb] at h
      obtain ⟨hi, hu, h⟩ := h
      have hk : (d .executions).lookup agent.executionId = some current := by
        rw [hi.left]
        exact ho.lookup_occupant hc
      refine ⟨current, rfl, hi, hb, hu, ?_⟩
      split at h
      case isTrue hw =>
        cases h
        refine ⟨rfl, fun k => ?_, rfl⟩
        by_cases hj : k = agent.executionId
        case pos => subst hj; simp [hk, hw]
        case neg => simp [hj]
      case isFalse =>
        cases h
        rw [written_executionId]
        exact ⟨rfl, rewrites_put hk⟩

theorem exec_update (ho : occupant (d .executions) agent.seat = some current)
    (hi : Identical agent current)
    (hb : RuntimeTarget.checkBinding current.runtimeTarget (written agent current).runtimeTarget = .ok ())
    (hu : UidFree d (written agent current)) :
    ∃ d', (update agent).exec History.inline d = .ok ((written agent current, current), d') := by
  by_cases hw : written agent current = current
  case pos =>
    refine ⟨d, ?_⟩
    rw [hw] at hb hu
    simp [update, ho, hi, hb, hu, hw]
  case neg => exact ⟨_, by simp [update, ho, hi, hb, hu, hw]; rfl⟩

theorem endOrphan_ok {r : Bool} {now : Int} (ho : Own (d .executions))
    (h : (endOrphan agent now listed).exec History.inline d = .ok (r, d')) :
    if r then
      occupant (d .executions) agent.seat = some agent ∧ OrphanState agent now ∧ agent.name ∉ listed ∧
        Rewrites d d' fun k old => if k = agent.executionId then ended agent else old
    else d' = d := by
  simp [endOrphan] at h
  split at h
  case isTrue hc =>
    cases h
    exact ⟨hc.left, hc.right.left, hc.right.right, rewrites_put (ho.lookup_occupant hc.left)⟩
  case isFalse =>
    cases h
    rfl

theorem exec_undo : ∃ d', (undo agent).exec History.inline d = .ok ((), d') := by
  simp only [undo, exec_read, exec_ite]
  split <;> exact ⟨_, rfl⟩

theorem undo_ok {r : Unit} (h : (undo agent).exec History.inline d = .ok (r, d')) :
    Rewrites d d' fun k old => if k = agent.executionId ∧ old = ended agent then agent else old := by
  simp [undo] at h
  split at h
  case isTrue hr =>
    cases h
    refine ⟨fun k => ?_, by simp⟩
    by_cases hk : k = agent.executionId
    case pos => subst hk; simp [hr]
    case neg => simp [hk]
  case isFalse hr =>
    cases h
    refine ⟨fun k => ?_, rfl⟩
    by_cases hk : k = agent.executionId
    case neg => simp [hk]
    case pos =>
      subst hk
      cases hl : (d .executions).lookup agent.executionId
      case none => simp
      case some row =>
        have hn : row ≠ ended agent := by
          rintro rfl
          exact hr hl
        simp [hn]

theorem dropAgent_ok {r : Bool} {name : String} {live : Finset String} {expected : Option String}
    (h : (dropAgent name live expected).exec History.inline d = .ok (r, d')) :
    if r then
      occupants (d .executions) (·.name = name) = live ∧
        Rewrites d d' fun k old => if k ∈ live ∧ old.state ≠ .finished then ended old else old
    else d' = d := by
  simp [dropAgent] at h
  split at h
  case isTrue => cases h; rfl
  case isFalse hc =>
    cases h
    simp only [not_or, not_not] at hc
    refine ⟨hc.left, fun k => ?_, by simp⟩
    simp only [endedRows, Sections.update_same, Finmap.lookup_union, Finmap.lookup_build]
    cases hl : (d .executions).lookup k
    case none => simp
    case some row =>
      by_cases hk : k ∈ live <;> by_cases hf : row.state = .finished <;> simp [hk, hf, Option.filter]

theorem setPane_ok {executionId paneId : String} {r : Option (AgentRecord × AgentRecord)}
    (h : (setPane executionId paneId listed).exec History.inline d = .ok (r, d')) :
    (∃ row, (d .executions).lookup executionId = some row ∧
      Rewrites d d' fun k old => if k = executionId then withPane row paneId else old) ∨
    ∃ row, (d .executions).lookup executionId = none ∧ (d .archive).lookup executionId = some row ∧
      d' .executions = .singleton executionId (withPane row paneId) ∪ d .executions ∧
      d' .archive = (d .archive).restrict (· ∉ ({executionId} : Finset String)) := by
  simp only [setPane, exec_read, exec_ite, exec_delete] at h
  cases hl : (d .executions).lookup executionId
  case some row =>
    simp [hl, place] at h
    obtain ⟨rfl, rfl⟩ := h
    exact .inl ⟨row, rfl, rewrites_put hl⟩
  case none =>
    cases ha : (d .archive).lookup executionId
    case none => simp [hl, ha, place] at h
    case some row =>
      simp [hl, ha, place] at h
      obtain ⟨rfl, rfl⟩ := h
      exact .inr ⟨row, rfl, rfl, by simp, by simp⟩

@[simp]
theorem lookup_oldRows : (oldRows executions listed).lookup key =
    (executions.lookup key).filter (Old executions listed ·) := by
  refine Finmap.lookup_build_of_support fun hk => ?_
  simp [Finmap.lookup_eq_none_of_notMem_keys hk]

theorem archive_ok {r : ℕ} (h : (archive listed).exec History.inline d = .ok (r, d')) :
    (∀ k, (d' .executions).lookup k =
      ((d .executions).lookup k).filter fun row => ¬Old (d .executions) listed row) ∧
    ∀ k, (d' .archive).lookup k =
      ((((d .executions).lookup k).filter (Old (d .executions) listed ·)).or
        ((d .archive).lookup k)).map strip := by
  simp [archive, History.inline] at h
  obtain ⟨rfl, rfl⟩ := h
  refine ⟨fun k => ?_, fun k => ?_⟩
  · cases hl : (d .executions).lookup k
    case none => simp [hl]
    case some row =>
      by_cases ho : Old (d .executions) listed row <;>
        simp [Finmap.mem_keys, ← Finmap.lookup_isSome, hl, Option.filter, ho]
  · simp [Finmap.lookup_union]

end Execution

namespace Execution

open Program Fencing Fencing.Change

variable {agent current row : AgentRecord} {seat key uuid previousId : String} {d d' : Document}
variable {listed : Finset String}

def records (d : Document) : Rows :=
  recordsOf (d .executions) (d .archive)

@[simp]
theorem lookup_records :
    (records d).lookup key = ((d .executions).lookup key).or ((d .archive).lookup key) :=
  Finmap.lookup_union ..

-- Later rows of one execution.
structure Continues (row row' : AgentRecord) : Prop where
  executionId : row'.executionId = row.executionId
  seat        : row'.seat = row.seat
  generation  : row'.generation = row.generation
  name        : row'.name = row.name
  target      : row.runtimeTarget.Extends row'.runtimeTarget

theorem Continues.refl : Continues row row :=
  ⟨rfl, rfl, rfl, rfl, .refl⟩

-- A row is filed under its own identity, in one of the two sections; an archived row is superseded by
-- a current row of its seat.
structure Registered (d : Document) : Prop where
  executions : Own (d .executions)
  archive    : Own (d .archive)
  disjoint   : ∀ {k row}, (d .archive).lookup k = some row → (d .executions).lookup k = none
  superseded : ∀ {k row}, (d .archive).lookup k = some row →
    ∃ j head, (d .executions).lookup j = some head ∧ head.seat = row.seat ∧
      row.generation < head.generation

def UidsUnique (d : Document) : Prop :=
  ∀ j k row row' uid, (records d).lookup j = some row → (records d).lookup k = some row' →
    row.runtimeTarget.podUid = some uid → row'.runtimeTarget.podUid = some uid → j = k

-- What every call but an accepted start does: it keeps the rows, each as a continuation of itself.
structure Refiled (d d' : Document) : Prop where
  rows       : ∀ k, Option.Rel Continues ((records d).lookup k) ((records d').lookup k)
  registered : Registered d'
  uids       : UidsUnique d'

namespace Registered

theorem own (h : Registered d) : Own (records d) := by
  intro k row hk
  rw [lookup_records, Option.or_eq_some_iff] at hk
  rcases hk with hk | ⟨_, hk⟩
  · exact h.executions _ _ hk
  · exact h.archive _ _ hk

theorem records_of_archive (h : Registered d) (hk : (d .archive).lookup key = some row) :
    (records d).lookup key = some row := by
  simp [h.disjoint hk, hk]

theorem refiled (h : Registered d) (hu : UidsUnique d) : Refiled d d := by
  refine ⟨fun k => ?_, h, hu⟩
  cases (records d).lookup k
  case none => exact .none
  case some => exact .some .refl

-- The occupant of a seat has the highest generation of all its rows, archived ones included.
theorem le_occupant (h : Registered d) (ho : occupant (d .executions) seat = some current)
    (hk : (records d).lookup key = some row) (hs : row.seat = seat) :
    row.generation ≤ current.generation := by
  obtain ⟨_, _, _, hm⟩ := occupant_eq_some.mp ho
  have hle {j : String} {w : AgentRecord} (hj : (d .executions).lookup j = some w)
      (hw : w.seat = seat) : w.generation ≤ current.generation := by
    have := hm j w hj hw
    rw [Prod.Lex.toLex_le_toLex] at this
    omega
  rw [lookup_records, Option.or_eq_some_iff] at hk
  rcases hk with hk | ⟨_, hk⟩
  · exact hle hk hs
  · obtain ⟨j, head, hj, hh, hg⟩ := h.superseded hk
    exact hg.le.trans (hle hj (hh.trans hs))

theorem isSome_occupant (h : Registered d) (hk : (records d).lookup key = some row) :
    ∃ current, occupant (d .executions) row.seat = some current := by
  have hex : ∃ j w, (d .executions).lookup j = some w ∧ w.seat = row.seat := by
    rw [lookup_records, Option.or_eq_some_iff] at hk
    rcases hk with hk | ⟨_, hk⟩
    · exact ⟨key, row, hk, rfl⟩
    · obtain ⟨j, head, hj, hh, _⟩ := h.superseded hk
      exact ⟨j, head, hj, hh⟩
  cases ho : occupant (d .executions) row.seat
  case some current => exact ⟨current, rfl⟩
  case none =>
    obtain ⟨j, w, hj, hw⟩ := hex
    exact absurd hw (occupant_eq_none.mp ho j w hj)

end Registered

-- Pod UIDs stay unique when every row keeps its target, except the one under `key`, whose Pod UID no
-- other row has.
theorem UidsUnique.rebind (key : String) (hu : UidsUnique d) (ho : Own (records d))
    (hr : ∀ k row', (records d').lookup k = some row' →
      (∃ row, (records d).lookup k = some row ∧ row'.runtimeTarget = row.runtimeTarget) ∨
        k = key ∧ row'.executionId = key ∧ UidFree d row') :
    UidsUnique d' := by
  have hfree {k : String} {row row' : AgentRecord} {uid : TargetValue} (hi : row'.executionId = key)
      (hf : UidFree d row') (hp : row'.runtimeTarget.podUid = some uid)
      (hk : (records d).lookup k = some row) (hq : row.runtimeTarget.podUid = some uid) : k = key := by
    by_contra hne
    refine hf uid hp ⟨k, row, hk, ?_, (RuntimeTarget.podUid_eq_some.mp hq).left⟩
    rw [ho _ _ hk, hi]
    exact hne
  intro j k row row' uid hj hk hpj hpk
  rcases hr j row hj with ⟨old, hoj, htj⟩ | ⟨rfl, hij, hfj⟩ <;>
    rcases hr k row' hk with ⟨old', hok, htk⟩ | ⟨rfl, hik, hfk⟩
  · exact hu _ _ _ _ _ hoj hok (htj ▸ hpj) (htk ▸ hpk)
  · exact hfree hik hfk hpk hoj (htj ▸ hpj)
  · exact (hfree hij hfj hpj hok (htk ▸ hpk)).symm
  · rfl

-- A change that rewrites current rows in place refiles, when it binds a Pod UID at most on the row
-- under `key`, and there to one no other row has.
theorem Rewrites.refiled {f : String → AgentRecord → AgentRecord} (key : String)
    (hf : Rewrites d d' f) (hr : Registered d) (hu : UidsUnique d)
    (hc : ∀ k row, (d .executions).lookup k = some row → Continues row (f k row))
    (ht : ∀ k row, (d .executions).lookup k = some row →
      (f k row).runtimeTarget = row.runtimeTarget ∨ k = key ∧ UidFree d (f k row)) :
    Refiled d d' := by
  have hrow {k : String} {row : AgentRecord} (hk : (d .executions).lookup k = some row) :
      (d' .executions).lookup k = some (f k row) := by
    simp [hf.executions, hk]
  have hpre {k : String} {row' : AgentRecord} (hk : (d' .executions).lookup k = some row') :
      ∃ row, (d .executions).lookup k = some row ∧ f k row = row' := by
    simpa [hf.executions] using hk
  refine ⟨fun k => ?_, ⟨?_, ?_, ?_, ?_⟩, hu.rebind key hr.own fun k row' hk => ?_⟩
  case refine_1 =>
    simp only [lookup_records, hf.executions, hf.archive]
    cases hk : (d .executions).lookup k
    case some row => simpa using hc k row hk
    case none =>
      cases (d .archive).lookup k
      case none => exact .none
      case some => exact .some .refl
  case refine_2 =>
    intro k row' hk
    obtain ⟨row, hd, rfl⟩ := hpre hk
    exact (hc k row hd).executionId.trans (hr.executions k row hd)
  case refine_3 =>
    rw [hf.archive]
    exact hr.archive
  case refine_4 =>
    intro k row hk
    rw [hf.archive] at hk
    simp [hf.executions, hr.disjoint hk]
  case refine_5 =>
    intro k row hk
    rw [hf.archive] at hk
    obtain ⟨j, head, hj, hs, hg⟩ := hr.superseded hk
    refine ⟨j, f j head, hrow hj, ?_, ?_⟩
    · rw [(hc j head hj).seat, hs]
    · rwa [(hc j head hj).generation]
  case refine_6 =>
    simp only [lookup_records, hf.archive, Option.or_eq_some_iff] at hk ⊢
    rcases hk with hk | ⟨hn, hk⟩
    · obtain ⟨row, hd, rfl⟩ := hpre hk
      rcases ht k row hd with ht | ⟨rfl, hfree⟩
      · exact .inl ⟨row, .inl hd, ht⟩
      · refine .inr ⟨rfl, ?_, hfree⟩
        rw [(hc k row hd).executionId, hr.executions k row hd]
    · exact .inl ⟨row', .inr ⟨hr.disjoint hk, hk⟩, rfl⟩

-- Rows that differ in nothing the registry tells executions apart by.
structure Alike (row row' : AgentRecord) : Prop where
  executionId : row'.executionId = row.executionId
  seat        : row'.seat = row.seat
  generation  : row'.generation = row.generation
  name        : row'.name = row.name
  target      : row'.runtimeTarget = row.runtimeTarget

theorem Alike.refl : Alike row row :=
  ⟨rfl, rfl, rfl, rfl, rfl⟩

theorem Alike.continues {row' : AgentRecord} (h : Alike row row') : Continues row row' where
  executionId := h.executionId
  seat        := h.seat
  generation  := h.generation
  name        := h.name
  target      := h.target ▸ .refl

theorem alike_ended : Alike row (ended row) :=
  ⟨rfl, rfl, rfl, rfl, rfl⟩

theorem alike_of_ended : Alike (ended row) row :=
  ⟨rfl, rfl, rfl, rfl, rfl⟩

theorem alike_withPane {paneId : String} : Alike row (withPane row paneId) :=
  ⟨rfl, rfl, rfl, rfl, rfl⟩

theorem alike_strip : Alike row (strip row) :=
  ⟨rfl, rfl, rfl, rfl, rfl⟩

theorem Rewrites.refiled_of_alike {f : String → AgentRecord → AgentRecord} (hf : Rewrites d d' f)
    (hr : Registered d) (hu : UidsUnique d)
    (ha : ∀ k row, (d .executions).lookup k = some row → Alike row (f k row)) : Refiled d d' :=
  hf.refiled "" hr hu (fun k row hk => (ha k row hk).continues) fun k row hk =>
    .inl (ha k row hk).target

theorem continues_written (hi : Identical agent current)
    (hb : RuntimeTarget.checkBinding current.runtimeTarget (written agent current).runtimeTarget = .ok ()) :
    Continues current (written agent current) := by
  obtain ⟨he, hg, hn, _, _, hs, _, _, _⟩ := hi
  refine ⟨by simp [he], ?_, ?_, ?_, RuntimeTarget.extends_of_checkBinding hb⟩
  all_goals
    unfold written keepBinding keepFinished
    split <;> split <;> assumption

section Calls

variable (hr : Registered d) (hu : UidsUnique d)
include hr hu

theorem refiled_update {r : AgentRecord × AgentRecord}
    (h : (update agent).exec History.inline d = .ok (r, d')) : Refiled d d' := by
  obtain ⟨current, ho, hi, hb, hf, _, hw⟩ := update_ok hr.executions h
  have hk : (d .executions).lookup agent.executionId = some current :=
    hi.left ▸ hr.executions.lookup_occupant ho
  refine hw.refiled agent.executionId hr hu (fun k row hl => ?_) fun k row hl => ?_
  all_goals
    by_cases he : k = agent.executionId
    case pos =>
      subst he
      obtain rfl := Option.some.inj (hl.symm.trans hk)
      simp [hf, continues_written hi hb]
    case neg => simp [he, Continues.refl]

theorem refiled_endOrphan {r : Bool} {now : Int}
    (h : (endOrphan agent now listed).exec History.inline d = .ok (r, d')) : Refiled d d' := by
  have hc := endOrphan_ok hr.executions h
  cases r
  case false =>
    replace hc : d' = d := hc
    rw [hc]
    exact hr.refiled hu
  case true =>
    obtain ⟨ho, _, _, hw⟩ := hc
    have hk := hr.executions.lookup_occupant ho
    refine hw.refiled_of_alike hr hu fun k row hl => ?_
    by_cases he : k = agent.executionId
    case neg => simp [he, Alike.refl]
    case pos =>
      have ha : row = agent := Option.some.inj (hl.symm.trans (he ▸ hk))
      simp [he, ha, alike_ended]

theorem refiled_undo {r : Unit} (h : (undo agent).exec History.inline d = .ok (r, d')) : Refiled d d' := by
  refine (undo_ok h).refiled_of_alike hr hu fun k row hl => ?_
  split
  case isTrue hc  => exact hc.right ▸ alike_of_ended
  case isFalse    => exact .refl

theorem refiled_dropAgent {r : Bool} {name : String} {live : Finset String} {expected : Option String}
    (h : (dropAgent name live expected).exec History.inline d = .ok (r, d')) : Refiled d d' := by
  have hc := dropAgent_ok h
  cases r
  case false =>
    replace hc : d' = d := hc
    rw [hc]
    exact hr.refiled hu
  case true =>
    refine hc.right.refiled_of_alike hr hu fun k row hl => ?_
    split
    case isTrue  => exact alike_ended
    case isFalse => exact .refl

-- Moving rows between the two sections, where each row stays alike and the archive stays superseded.
theorem refiled_of_moved
    (hm : ∀ k, Option.Rel Alike ((records d).lookup k) ((records d').lookup k))
    (hd : ∀ {k row}, (d' .archive).lookup k = some row → (d' .executions).lookup k = none)
    (hs : ∀ {k row}, (d' .archive).lookup k = some row →
      ∃ j head, (d' .executions).lookup j = some head ∧ head.seat = row.seat ∧
        row.generation < head.generation) : Refiled d d' := by
  have hp {k : String} {row' : AgentRecord} (hk : (records d').lookup k = some row') :
      ∃ row, (records d).lookup k = some row ∧ Alike row row' := by
    have := hm k
    rw [hk] at this
    cases h : (records d).lookup k
    case none => simp [h] at this
    case some row => exact ⟨row, rfl, by simpa [h] using this⟩
  have ho {k : String} {row' : AgentRecord} (hk : (records d').lookup k = some row') :
      row'.executionId = k := by
    obtain ⟨row, hk, ha⟩ := hp hk
    exact ha.executionId.trans (hr.own _ _ hk)
  refine ⟨fun k => ?_, ⟨fun k row hk => ho ?_, fun k row hk => ho ?_, hd, hs⟩,
    hu.rebind "" hr.own fun k row' hk => .inl ?_⟩
  case refine_1 =>
    have := hm k
    revert this
    cases (records d).lookup k <;> cases (records d').lookup k <;> simp
    exact Alike.continues
  case refine_2 => simp [hk]
  case refine_3 => simp [hk, hd hk]
  case refine_4 =>
    obtain ⟨row, hk, ha⟩ := hp hk
    exact ⟨row, hk, ha.target⟩

theorem refiled_setPane {executionId paneId : String} {r : Option (AgentRecord × AgentRecord)}
    (h : (setPane executionId paneId listed).exec History.inline d = .ok (r, d')) : Refiled d d' := by
  rcases setPane_ok h with ⟨row, hk, hw⟩ | ⟨row, hn, hk, he, ha⟩
  · refine hw.refiled_of_alike hr hu fun k old hl => ?_
    split
    case isTrue hi =>
      obtain rfl := Option.some.inj (hl.symm.trans (hi ▸ hk))
      exact alike_withPane
    case isFalse => exact .refl
  · have hle (k : String) : (d' .executions).lookup k =
        if k = executionId then some (withPane row paneId) else (d .executions).lookup k := by
      by_cases hi : k = executionId
      case pos => subst hi; simp [he]
      case neg => simp [he, hi]
    have hla (k : String) : (d' .archive).lookup k =
        if k = executionId then none else (d .archive).lookup k := by
      by_cases hi : k = executionId <;> simp [ha, hi]
    refine refiled_of_moved hr hu (fun k => ?_) (fun {k _} hl => ?_) fun {k _} hl => ?_
    case refine_1 =>
      by_cases hi : k = executionId
      case pos => subst hi; simp [hle, hla, hn, hk, alike_withPane]
      case neg =>
        simp only [lookup_records, hle, hla, hi, if_false]
        cases ((d .executions).lookup k).or ((d .archive).lookup k)
        case none => exact .none
        case some => exact .some .refl
    all_goals
      rw [hla] at hl
      split at hl
      case isTrue => cases hl
    case refine_2.isFalse hi => rw [hle, if_neg hi, hr.disjoint hl]
    case refine_3.isFalse hi =>
      obtain ⟨j, head, hj, hs⟩ := hr.superseded hl
      have hne : j ≠ executionId := by
        rintro rfl
        simp [hn] at hj
      exact ⟨j, head, by rw [hle, if_neg hne, hj], hs⟩

theorem refiled_archive {r : ℕ} (h : (archive listed).exec History.inline d = .ok (r, d')) : Refiled d d' := by
  obtain ⟨he, ha⟩ := archive_ok h
  -- Whatever is archived after the call is older than the occupant of its seat, which stays.
  have hs {seat : String} {row current : AgentRecord} (ho : occupant (d .executions) seat = some current)
      (hg : row.generation < current.generation) (hrow : row.seat = seat) :
      ∃ j head, (d' .executions).lookup j = some head ∧ head.seat = row.seat ∧
        row.generation < head.generation := by
    have hseat := occupant_seat ho
    refine ⟨current.executionId, current, ?_, hseat.trans hrow.symm, hg⟩
    have hno : ¬Old (d .executions) listed current := by
      intro ⟨⟨head, hh, hlt⟩, _⟩
      rw [hseat, Option.mem_def, ho] at hh
      cases hh
      omega
    rw [he, hr.executions.lookup_occupant ho]
    simp [Option.filter, hno]
  refine refiled_of_moved hr hu (fun k => ?_) (fun {k row} hl => ?_) fun {k row} hl => ?_
  case refine_1 =>
    simp only [lookup_records, he, ha]
    cases hk : (d .executions).lookup k
    case none =>
      cases (d .archive).lookup k
      case none => exact .none
      case some => exact .some alike_strip
    case some row =>
      by_cases ho : Old (d .executions) listed row
      case pos => simp [Option.filter, ho, alike_strip]
      case neg => simp [Option.filter, ho, Alike.refl]
  case refine_2 =>
    rw [ha] at hl
    rw [he]
    cases hk : (d .executions).lookup k
    case none => simp
    case some old =>
      by_cases ho : Old (d .executions) listed old
      case pos => simp [Option.filter, ho]
      case neg =>
        cases hd : (d .archive).lookup k
        case none => simp [hk, hd, Option.filter, ho] at hl
        case some => simp [hr.disjoint hd] at hk
  case refine_3 =>
    rw [ha, Option.map_eq_some_iff] at hl
    obtain ⟨old, hl, rfl⟩ := hl
    rw [Option.or_eq_some_iff] at hl
    rcases hl with hl | ⟨_, hl⟩
    · rw [Option.filter_eq_some_iff] at hl
      obtain ⟨hl, ho⟩ := hl
      simp only [decide_eq_true_eq] at ho
      obtain ⟨⟨head, hh, hg⟩, _⟩ := ho
      exact hs hh hg rfl
    · obtain ⟨j, head, hj, hh, hg⟩ := hr.superseded hl
      have hjr : (records d).lookup j = some head := by simp [hj]
      obtain ⟨current, hc⟩ := hr.isSome_occupant hjr
      have hle := hr.le_occupant hc hjr rfl
      exact hs (hh ▸ hc) (hg.trans_le hle) rfl

end Calls

end Execution
