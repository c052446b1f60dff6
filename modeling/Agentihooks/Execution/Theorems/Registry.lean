import Agentihooks.Execution.Theorems.Invariant

namespace Execution

open Program Fencing Fencing.Change

-- The generations given out in a seat, in the order of its starts.
def generationsOf (starts : List Start) (seat : String) : List ℕ :=
  (starts.filter (·.seat = seat)).map (·.generation)

-- The start a row goes back to.
def Start.of (row : AgentRecord) : Start :=
  ⟨row.executionId, row.seat, row.generation, row.name⟩

-- `starts` tells exactly what is filed in the two sections of the document.
structure Recorded (uuid4 : Supply) (s : System) : Prop where
  registered  : Registered s.document
  uids        : UidsUnique s.document
  drawn       : ∀ st ∈ s.starts, ∃ i < s.drawn, st.executionId = "exe-" ++ uuid4.hex i
  nodup       : (s.starts.map (·.executionId)).Nodup
  filed       : ∀ {k row}, (records s.document).lookup k = some row → .of row ∈ s.starts
  kept        : ∀ st ∈ s.starts, ∃ row, (records s.document).lookup st.executionId = some row ∧ .of row = st
  generations : ∀ seat, ∃ n, generationsOf s.starts seat = List.range' 1 n
  names       : ∀ a ∈ s.starts, ∀ b ∈ s.starts, a.name = b.name → a.seat = b.seat

variable {uuid4 : Supply} {s s' : System} {e : Event} {d d' : Document} {agent row : AgentRecord}
variable {seat previousId : String} {α : Type} {change : Change α} {a : α}

namespace System

theorem commit_ok (h : s.commit e change = some (a, d')) :
    change.exec History.inline s.document = .ok (a, d') := by
  unfold commit at h
  cases hx : (Lease.fenced (e.epoch.map .epoch) e.now change).exec History.inline s.document
  case error => simp [hx, Except.toOption] at h
  case ok r  =>
    simp only [hx, Except.toOption, Option.some.injEq] at h
    exact h ▸ (Lease.fenced_ok hx).left

-- A start that was accepted: one row more, and one start more to account for it.
structure Admits (uuid4 : Supply) (s s' : System) (row : AgentRecord) : Prop where
  executionId : row.executionId = "exe-" ++ uuid4.hex s.drawn
  generation  : row.generation = (occupant (s.document .executions) row.seat).elim 1 (·.generation + 1)
  names       : ∀ {k old}, (records s.document).lookup k = some old → old.name = row.name →
    old.seat = row.seat
  uid         : UidFree s.document { row with executionId := "" }
  executions  : s'.document .executions = .singleton row.executionId row ∪ s.document .executions
  archive     : s'.document .archive = s.document .archive
  starts      : s'.starts = s.starts ++ [.of row]
  drawn       : s'.drawn = s.drawn + 1

theorem prepare_executionId {names : Naming} {slug : String} {publication : Bool} {agent' : AgentRecord}
    (h : prepare names slug publication agent = .ok agent') : agent'.executionId = "" := by
  simp [prepare, Bind.bind, Except.bind, Pure.pure, Except.pure, throw, throwThe,
    MonadExceptOf.throw] at h
  obtain ⟨_, ⟨hi, _⟩, h⟩ := h
  split at h
  case h_1 => cases h
  case h_2 =>
    simp at h
    exact h.right ▸ hi

-- Everything a step can do to the registered rows.
inductive Effect (uuid4 : Supply) (s s' : System) : Prop
  | kept (h : Refiled s.document s'.document) (hs : s'.starts = s.starts) (hd : s.drawn ≤ s'.drawn)
  | admitted (row : AgentRecord) (h : Admits uuid4 s s' row)

section Effect

variable (hr : Registered s.document) (hu : UidsUnique s.document)
include hr hu

theorem effect_refl : Effect uuid4 s s :=
  .kept (hr.refiled hu) rfl le_rfl

theorem effect_change (h : ∀ {a d'}, change.exec History.inline s.document = .ok (a, d') → Refiled s.document d') :
    Effect uuid4 s (s.change e change) := by
  unfold System.change
  split
  case h_1      => exact effect_refl hr hu
  case h_2 heq  => exact .kept (h (commit_ok heq)) rfl le_rfl

omit hr hu in
theorem admits_start {r : AgentRecord × Option AgentRecord} (hi : agent.executionId = "")
    (h : s.commit e (do
      hydrateArchive
      admitAgent agent previousId (uuid4.hex s.drawn) e.epoch) = some (r, d')) :
    Admits uuid4 s (s.start uuid4 e agent previousId) r.1 := by
  unfold start
  simp only [h]
  replace h := commit_ok h
  simp [History.inline] at h
  obtain ⟨rfl, hn, hf, _, he, ha⟩ := admit_ok h
  constructor
  case executionId => rfl
  case generation  => rfl
  case names       =>
    intro k old hk hn'
    by_contra hs
    exact hn ⟨k, old, hk, hn', hs⟩
  case uid         => simpa [UidFree, admitted, hi] using hf
  case executions  => exact he
  case archive     => exact ha
  case starts      => rfl
  case drawn       => rfl

theorem effect_start (hi : agent.executionId = "") :
    Effect uuid4 s (s.start uuid4 e agent previousId) := by
  cases h : s.commit e (do
    hydrateArchive
    admitAgent agent previousId (uuid4.hex s.drawn) e.epoch)
  case some r => exact .admitted _ (admits_start hi h)
  case none   =>
    simp only [start, h]
    exact .kept (hr.refiled hu) rfl (Nat.le_succ _)

variable (uuid4 e) in
theorem effect_step : Effect uuid4 s (s.step uuid4 e) := by
  suffices h : Effect uuid4 s (s.act uuid4 e) by
    cases h
    case kept h hs hd    => exact .kept h hs hd
    case admitted row h  => exact .admitted row { h with }
  unfold act
  cases e.call
  case start names slug publication agent previousId =>
    dsimp only
    split
    case h_1    => exact effect_refl hr hu
    case h_2 hp => exact effect_start hr hu (prepare_executionId hp)
  case update names slug agent =>
    dsimp only
    split
    · exact effect_refl hr hu
    · exact effect_change hr hu (refiled_update hr hu)
  case setPane executionId paneId listed =>
    refine effect_change hr hu fun h => ?_
    simp [History.inline] at h
    exact refiled_setPane hr hu h
  case archive listed =>
    exact effect_change hr hu (refiled_archive hr hu)
  case endOrphan agent now listed =>
    dsimp only
    split
    case h_1 heq => exact .kept (refiled_endOrphan hr hu (commit_ok heq)) rfl le_rfl
    case h_2     => exact effect_refl hr hu
  case confirmOrphan agent listed =>
    dsimp only
    split
    · exact effect_refl hr hu
    · split
      · have h : Effect uuid4 { s with ending := s.ending.erase agent }
            (System.change { s with ending := s.ending.erase agent } e (undo agent)) :=
          effect_change hr hu (refiled_undo hr hu)
        cases h
        case kept h hs hd   => exact .kept h hs hd
        case admitted row h => exact .admitted row { h with }
      · exact .kept (hr.refiled hu) rfl le_rfl
  case dropAgent name live expected =>
    dsimp only
    split
    case h_1 heq => exact .kept (refiled_dropAgent hr hu (commit_ok heq)) rfl le_rfl
    case h_2     => exact effect_refl hr hu
  case confirmDrop name live =>
    dsimp only
    split
    · exact effect_refl hr hu
    · split <;> exact .kept (hr.refiled hu) rfl le_rfl

end Effect
end System

namespace Recorded

theorem empty : Recorded uuid4 .empty where
  registered  := by constructor <;> simp [Own, System.empty, Document.empty]
  uids        := by simp [UidsUnique, System.empty, Document.empty]
  drawn       := by simp [System.empty]
  nodup       := by simp [System.empty]
  filed       := by simp [System.empty, Document.empty]
  kept        := by simp [System.empty]
  generations := fun _ => ⟨0, rfl⟩
  names       := by simp [System.empty]

variable (h : Recorded uuid4 s)
include h

theorem start_inj {a b : Start} (ha : a ∈ s.starts) (hb : b ∈ s.starts)
    (hi : a.executionId = b.executionId) : a = b :=
  List.inj_on_of_nodup_map h.nodup ha hb hi

theorem generation_inj {a b : Start} (ha : a ∈ s.starts) (hb : b ∈ s.starts) (hs : a.seat = b.seat)
    (hg : a.generation = b.generation) : a = b := by
  obtain ⟨n, hn⟩ := h.generations b.seat
  have hnd : (generationsOf s.starts b.seat).Nodup := hn ▸ List.nodup_range' ..
  exact List.inj_on_of_nodup_map hnd (by simp [ha, hs]) (by simp [hb]) hg

-- The occupant's generation is the number of starts of its seat so far.
theorem generation_occupant :
    generationsOf s.starts seat =
      List.range' 1 ((occupant (s.document .executions) seat).elim 0 (·.generation)) := by
  obtain ⟨n, hn⟩ := h.generations seat
  rw [hn]
  congr 1
  have hmem {m : ℕ} (hm : 1 ≤ m ∧ m ≤ n) :
      ∃ k row, (records s.document).lookup k = some row ∧ row.seat = seat ∧ row.generation = m := by
    have : m ∈ generationsOf s.starts seat := by rw [hn, List.mem_range'_1]; omega
    simp only [generationsOf, List.mem_map, List.mem_filter, decide_eq_true_eq] at this
    obtain ⟨st, ⟨hst, hs⟩, hg⟩ := this
    obtain ⟨row, hk, rfl⟩ := h.kept st hst
    exact ⟨_, row, hk, hs, hg⟩
  have hle {k : String} {row : AgentRecord} (hk : (records s.document).lookup k = some row)
      (hs : row.seat = seat) : 1 ≤ row.generation ∧ row.generation ≤ n := by
    have : row.generation ∈ generationsOf s.starts seat := by
      simp only [generationsOf, List.mem_map, List.mem_filter, decide_eq_true_eq]
      exact ⟨.of row, ⟨h.filed hk, hs⟩, rfl⟩
    rw [hn, List.mem_range'_1] at this
    omega
  cases ho : occupant (s.document .executions) seat
  case none =>
    by_contra hne
    replace hne : n ≠ 0 := hne
    obtain ⟨k, row, hk, hs, _⟩ := hmem (m := n) (by omega)
    obtain ⟨current, hc⟩ := h.registered.isSome_occupant hk
    rw [hs, ho] at hc
    cases hc
  case some current =>
    have hk : (records s.document).lookup current.executionId = some current := by
      simp [h.registered.executions.lookup_occupant ho]
    have hc := hle hk (occupant_seat ho)
    obtain ⟨k, row, hk, hs, hg⟩ := hmem (m := n) (by omega)
    have := h.registered.le_occupant ho hk hs
    change n = current.generation
    omega

theorem refiled (hf : Refiled s.document s'.document) (hs : s'.starts = s.starts)
    (hd : s.drawn ≤ s'.drawn) : Recorded uuid4 s' where
  registered  := hf.registered
  uids        := hf.uids
  drawn       := fun st hst => by
    obtain ⟨i, hi, he⟩ := h.drawn st (hs ▸ hst)
    exact ⟨i, by omega, he⟩
  nodup       := hs ▸ h.nodup
  filed       := fun {k row'} hk => by
    have := hf.rows k
    rw [hk] at this
    cases hr : (records s.document).lookup k
    case none => simp [hr] at this
    case some row =>
      replace this : Continues row row' := by simpa [hr] using this
      have he : Start.of row' = .of row := by
        simp [Start.of, this.executionId, this.seat, this.generation, this.name]
      rw [hs, he]
      exact h.filed hr
  kept        := fun st hst => by
    obtain ⟨row, hk, he⟩ := h.kept st (hs ▸ hst)
    have := hf.rows st.executionId
    rw [hk] at this
    cases hr : (records s'.document).lookup st.executionId
    case none => simp [hr] at this
    case some row' =>
      replace this : Continues row row' := by simpa [hr] using this
      refine ⟨row', rfl, ?_⟩
      rw [← he]
      simp [Start.of, this.executionId, this.seat, this.generation, this.name]
  generations := fun seat => hs ▸ h.generations seat
  names       := hs ▸ h.names

theorem executionId_ne (ha : System.Admits uuid4 s s' row) {st : Start} (hst : st ∈ s.starts) :
    st.executionId ≠ row.executionId := by
  obtain ⟨i, hi, he⟩ := h.drawn st hst
  rw [he, ha.executionId]
  intro hc
  have := uuid4.fresh (String.append_right_inj _ |>.mp hc)
  omega

theorem lookup_fresh (ha : System.Admits uuid4 s s' row) :
    (records s.document).lookup row.executionId = none := by
  cases hk : (records s.document).lookup row.executionId
  case none => rfl
  case some old =>
    have := h.registered.own _ _ hk
    exact absurd this (h.executionId_ne ha (h.filed hk))

omit h in
theorem lookup_admitted (ha : System.Admits uuid4 s s' row) (k : String) :
    (records s'.document).lookup k =
      if k = row.executionId then some row else (records s.document).lookup k := by
  by_cases hk : k = row.executionId
  case pos => subst hk; simp [ha.executions]
  case neg => simp [ha.executions, ha.archive, hk]

theorem registered_admitted (ha : System.Admits uuid4 s s' row) : Registered s'.document := by
  have hf := h.lookup_fresh ha
  simp only [lookup_records, Option.or_eq_none_iff] at hf
  have hle (k : String) : (s'.document .executions).lookup k =
      if k = row.executionId then some row else (s.document .executions).lookup k := by
    by_cases hk : k = row.executionId
    case pos => subst hk; simp [ha.executions]
    case neg => simp [ha.executions, hk]
  have hne {k : String} {old : AgentRecord} (hk : (s.document .archive).lookup k = some old) :
      k ≠ row.executionId := by
    rintro rfl
    simp [hf.right] at hk
  refine ⟨fun k old hk => ?_, ha.archive ▸ h.registered.archive, fun {k old} hk => ?_,
    fun {k old} hk => ?_⟩
  · rw [hle] at hk
    split at hk
    case isTrue he => cases hk; exact he.symm
    case isFalse   => exact h.registered.executions _ _ hk
  · rw [ha.archive] at hk
    rw [hle, if_neg (hne hk), h.registered.disjoint hk]
  · rw [ha.archive] at hk
    obtain ⟨j, head, hj, hs⟩ := h.registered.superseded hk
    refine ⟨j, head, ?_, hs⟩
    rw [hle, if_neg, hj]
    rintro rfl
    simp [hf.left] at hj

theorem uids_admitted (ha : System.Admits uuid4 s s' row) : UidsUnique s'.document := by
  refine h.uids.rebind row.executionId h.registered.own fun k new hk => ?_
  rw [lookup_admitted ha] at hk
  split at hk
  case isFalse => exact .inl ⟨new, hk, rfl⟩
  case isTrue he =>
    cases hk
    refine .inr ⟨he, rfl, fun uid hp ⟨j, old, hj, _, hu⟩ => ?_⟩
    refine ha.uid uid hp ⟨j, old, hj, ?_, hu⟩
    obtain ⟨i, _, hi⟩ := h.drawn _ (h.filed hj)
    change old.executionId ≠ ""
    rw [show old.executionId = _ from hi]
    simp

theorem admitted (ha : System.Admits uuid4 s s' row) : Recorded uuid4 s' where
  registered  := h.registered_admitted ha
  uids        := h.uids_admitted ha
  drawn       := fun st hst => by
    rw [ha.starts, List.mem_append, List.mem_singleton] at hst
    rcases hst with hst | rfl
    · obtain ⟨i, hi, he⟩ := h.drawn st hst
      exact ⟨i, by rw [ha.drawn]; omega, he⟩
    · exact ⟨s.drawn, by rw [ha.drawn]; omega, ha.executionId⟩
  nodup       := by
    rw [ha.starts, List.map_append, List.nodup_append]
    refine ⟨h.nodup, by simp, fun x hx y hy => ?_⟩
    obtain ⟨st, hst, rfl⟩ := List.mem_map.mp hx
    obtain rfl : y = row.executionId := by simpa [Start.of] using hy
    exact h.executionId_ne ha hst
  filed       := fun {k new} hk => by
    rw [lookup_admitted ha] at hk
    rw [ha.starts, List.mem_append, List.mem_singleton]
    split at hk
    case isTrue  => cases hk; exact .inr rfl
    case isFalse => exact .inl (h.filed hk)
  kept        := fun st hst => by
    rw [ha.starts, List.mem_append, List.mem_singleton] at hst
    rcases hst with hst | rfl
    · obtain ⟨old, hk, he⟩ := h.kept st hst
      exact ⟨old, by rw [lookup_admitted ha, if_neg (h.executionId_ne ha hst), hk], he⟩
    · exact ⟨row, by rw [lookup_admitted ha]; exact if_pos rfl, rfl⟩
  generations := fun seat => by
    by_cases hs : row.seat = seat
    case neg => simpa [generationsOf, ha.starts, Start.of, hs] using h.generations seat
    case pos =>
      subst hs
      have hg : generationsOf s.starts row.seat = _ := h.generation_occupant
      refine ⟨(occupant (s.document .executions) row.seat).elim 0 (·.generation) + 1, ?_⟩
      rw [List.range'_1_concat, ← hg]
      have hrow := ha.generation
      cases ho : occupant (s.document .executions) row.seat <;>
        simp [generationsOf, ha.starts, Start.of, hrow, ho, Nat.add_comm]
  names       := by
    have hname {st : Start} (hst : st ∈ s.starts) (hn : st.name = row.name) : st.seat = row.seat := by
      obtain ⟨old, hk, rfl⟩ := h.kept st hst
      exact ha.names hk hn
    intro a hma b hmb hn
    rw [ha.starts, List.mem_append, List.mem_singleton] at hma hmb
    rcases hma with hma | rfl <;> rcases hmb with hmb | rfl
    · exact h.names a hma b hmb hn
    · exact hname hma hn
    · exact (hname hmb hn.symm).symm
    · rfl

theorem step : Recorded uuid4 (s.step uuid4 e) := by
  cases System.effect_step uuid4 e h.registered h.uids
  case kept hf hs hd    => exact h.refiled hf hs hd
  case admitted row ha  => exact h.admitted ha

omit h in
theorem run (es : List Event) : Recorded uuid4 (.run uuid4 es) :=
  Run.invariant (fun _ _ h => h.step) .empty

end Recorded

-- The document files `row` under `id`, as a current or as an archived execution.
def Filed (d : Document) (id : String) (row : AgentRecord) : Prop :=
  (d .executions).lookup id = some row ∨ (d .archive).lookup id = some row

theorem Registered.filed_iff (h : Registered d) {id : String} :
    Filed d id row ↔ (records d).lookup id = some row := by
  rw [lookup_records, Option.or_eq_some_iff]
  constructor
  case mp =>
    rintro (hk | hk)
    · exact .inl hk
    · exact .inr ⟨h.disjoint hk, hk⟩
  case mpr =>
    rintro (hk | ⟨_, hk⟩)
    · exact .inl hk
    · exact .inr hk

-- What holds of the registry in a reachable state.
structure Consistent (s : System) : Prop where
  functional  : ∀ id row row', Filed s.document id row → Filed s.document id row' → row = row'
  started     : ∀ st, st ∈ s.starts ↔ ∃ row, Filed s.document st.executionId row ∧ .of row = st
  generations : ∀ seat, ∃ n, generationsOf s.starts seat = List.range' 1 n
  unique      : ∀ id id' row row', Filed s.document id row → Filed s.document id' row' →
    row.seat = row'.seat → row.generation = row'.generation → id = id'
  occupants   : ∀ seat row, occupant (s.document .executions) seat = some row ↔
    Filed s.document row.executionId row ∧ row.seat = seat ∧
      ∀ id' row', Filed s.document id' row' → row'.seat = seat → row'.generation ≤ row.generation
  unarchived  : ∀ seat row, occupant (s.document .executions) seat = some row →
    (s.document .archive).lookup row.executionId = none
  names       : ∀ id id' row row', Filed s.document id row → Filed s.document id' row' →
    row.name = row'.name → row.seat = row'.seat
  uids        : ∀ id id' row row' uid, Filed s.document id row → Filed s.document id' row' →
    row.runtimeTarget.podUid = some uid → row'.runtimeTarget.podUid = some uid → id = id'

theorem Recorded.consistent (h : Recorded uuid4 s) : Consistent s := by
  have hf {id : String} {row : AgentRecord} :
      Filed s.document id row ↔ (records s.document).lookup id = some row := h.registered.filed_iff
  have hu {id id' : String} {row row' : AgentRecord} (hk : (records s.document).lookup id = some row)
      (hk' : (records s.document).lookup id' = some row') (hs : row.seat = row'.seat)
      (hg : row.generation = row'.generation) : id = id' := by
    have := h.generation_inj (h.filed hk) (h.filed hk') hs hg
    rw [← h.registered.own _ _ hk, ← h.registered.own _ _ hk']
    exact congrArg Start.executionId this
  have hc {seat : String} {row : AgentRecord} (ho : occupant (s.document .executions) seat = some row) :
      (records s.document).lookup row.executionId = some row := by
    simp [h.registered.executions.lookup_occupant ho]
  constructor
  case functional =>
    simp only [hf]
    intro id row row' hk hk'
    exact Option.some.inj (hk.symm.trans hk')
  case started =>
    intro st
    simp only [hf]
    constructor
    case mp  => exact h.kept st
    case mpr => exact fun ⟨row, hk, he⟩ => he ▸ h.filed hk
  case generations => exact h.generations
  case unique      =>
    simp only [hf]
    exact fun _ _ _ _ => hu
  case occupants   =>
    intro seat row
    simp only [hf]
    constructor
    case mp =>
      intro ho
      exact ⟨hc ho, occupant_seat ho, fun _ _ hk => h.registered.le_occupant ho hk⟩
    case mpr =>
      intro ⟨hk, hs, hm⟩
      obtain ⟨current, ho⟩ := h.registered.isSome_occupant hk
      rw [hs] at ho
      have hg := (hm _ _ (hc ho) (occupant_seat ho)).antisymm (h.registered.le_occupant ho hk hs)
      have hi := hu hk (hc ho) (hs.trans (occupant_seat ho).symm) hg.symm
      rw [hi] at hk
      rw [ho, ← hk, hc ho]
  case unarchived  =>
    intro seat row ho
    cases ha : (s.document .archive).lookup row.executionId
    case none     => rfl
    case some old =>
      have hn := h.registered.disjoint ha
      rw [h.registered.executions.lookup_occupant ho] at hn
      cases hn
  case names       =>
    simp only [hf]
    intro id id' row row' hk hk' hn
    exact h.names _ (h.filed hk) _ (h.filed hk') hn
  case uids        =>
    simp only [hf]
    exact h.uids

-- A step keeps every execution, and of its runtime target what was bound.
theorem Recorded.extends_step (h : Recorded uuid4 s) {id : String} (hk : Filed s.document id row) :
    ∃ row', Filed (s.step uuid4 e).document id row' ∧
      row.runtimeTarget.Extends row'.runtimeTarget := by
  rw [h.registered.filed_iff] at hk
  simp only [(h.step (e := e)).registered.filed_iff]
  cases System.effect_step uuid4 e h.registered h.uids
  case kept hf _ _ =>
    have hr := hf.rows id
    rw [hk] at hr
    cases hk' : (records (s.step uuid4 e).document).lookup id
    case none      => simp [hk'] at hr
    case some row' =>
      replace hr : Continues row row' := by simpa [hk'] using hr
      exact ⟨row', rfl, hr.target⟩
  case admitted new ha =>
    refine ⟨row, ?_, .refl⟩
    rw [lookup_admitted ha, if_neg, hk]
    rintro rfl
    simp [h.lookup_fresh ha] at hk

theorem Recorded.binds_run (h : Recorded uuid4 s) {id field : String} {value : TargetValue}
    {es : List Event} (hk : Filed s.document id row) (hb : row.runtimeTarget.Binds field value) :
    ∃ row', Filed (Run.run (System.step uuid4) s es).document id row' ∧
      row'.runtimeTarget.Binds field value := by
  induction es generalizing s row
  case nil => exact ⟨row, hk, hb⟩
  case cons e es hi =>
    obtain ⟨row', hk', he⟩ := h.extends_step (e := e) hk
    exact hi h.step hk' (hb.extends he)

-- The registry reached from an empty swarm by any calls is consistent, and the binding of an execution
-- is stable: what a field of its runtime target is bound to stays, over any further calls, and one call
-- adds at most a Pod UID that was not known or the process of a host that was named alone.
theorem registry_consistent (uuid4 : Supply) (es : List Event) :
    Consistent (.run uuid4 es) ∧
    (∀ es' id row row' field value, Filed (System.run uuid4 es).document id row →
      Filed (System.run uuid4 (es ++ es')).document id row' →
      row.runtimeTarget.Binds field value → row'.runtimeTarget.Binds field value) ∧
    (∀ e id row row', Filed (System.run uuid4 es).document id row →
      Filed (System.run uuid4 (es ++ [e])).document id row' →
      row.runtimeTarget.Extends row'.runtimeTarget) := by
  have h : Recorded uuid4 (.run uuid4 es) := .run es
  refine ⟨h.consistent, ?_, ?_⟩
  case refine_1 =>
    intro es' id row row' field value hk hk' hb
    obtain ⟨later, hl, hb⟩ : ∃ later, Filed (Run.run (System.step uuid4) (.run uuid4 es) es').document id later ∧
        later.runtimeTarget.Binds field value := h.binds_run hk hb
    rw [System.run] at hl
    rw [← Run.run_append] at hl
    obtain rfl := (Recorded.run (es ++ es')).consistent.functional _ _ _ hl hk'
    exact hb
  case refine_2 =>
    intro e id row row' hk hk'
    obtain ⟨later, hl, hx⟩ := h.extends_step (e := e) hk
    rw [System.run, Run.run_concat] at hk'
    obtain rfl := (h.step (e := e)).consistent.functional _ _ _ hl hk'
    exact hx

end Execution
