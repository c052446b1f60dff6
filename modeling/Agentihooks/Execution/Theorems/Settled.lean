import Agentihooks.Execution.Theorems.Registry

namespace Execution

open Program Fencing Fencing.Change

def Final (row : AgentRecord) : Prop :=
  row.state = .finished ∨ row.state = .ended

instance : DecidablePred Final :=
  fun _ => inferInstanceAs (Decidable (_ ∨ _))

-- The lease check of the call passes.
def Event.Live (e : Event) (d : Document) : Prop :=
  ∀ epoch ∈ e.epoch, (Held.epoch epoch).isLive d.lease e.now

instance (e : Event) (d : Document) : Decidable (e.Live d) :=
  inferInstanceAs (Decidable (∀ _ ∈ _, _))

namespace System

-- The two calls that bring a settled execution back: an update that passes every check and carries a
-- state that is not final onto a row recorded ended, and the undo of an `end_orphan` whose row has been
-- settled since.
def Revives (s : System) (e : Event) : Prop :=
  match e.call with
  | .update names slug agent =>
    ∃ current ∈ occupant (s.document .executions) agent.seat,
      current.executionId ∈ s.settled ∧ current.state = .ended ∧ ¬Final agent ∧
      validate names slug agent = .ok () ∧ Identical agent current ∧
      RuntimeTarget.checkBinding current.runtimeTarget (written agent current).runtimeTarget = .ok () ∧
      UidFree s.document (written agent current) ∧ e.Live s.document
  | .confirmOrphan agent listed =>
    agent ∈ s.ending ∧ agent.name ∈ listed ∧ agent.executionId ∈ s.settled ∧
      (s.document .executions).lookup agent.executionId = some (ended agent) ∧ e.Live s.document
  | _ => False

-- Every settled execution is finished or ended.
def Settled (s : System) : Prop :=
  ∀ id ∈ s.settled, ∀ row, Filed s.document id row → Final row

-- What else the proof carries along: settled executions exist, and the calls of `end_orphan` under way
-- were made for executions that were neither finished nor ended.
structure Sound (s : System) : Prop where
  known  : ∀ id ∈ s.settled, ∃ row, Filed s.document id row
  ending : ∀ agent ∈ s.ending, ¬Final agent

end System

variable {uuid4 : Supply} {s s' : System} {e : Event} {d d' : Document} {agent current row : AgentRecord}
variable {α : Type} {change : Change α} {a : α}

-- The executions of `d'` among `ids` go back to executions of `d` and are final where these were.
def KeepsFinal (ids : Finset String) (d d' : Document) : Prop :=
  ∀ id ∈ ids, ∀ row', Filed d' id row' → ∃ row, Filed d id row ∧ (Final row → Final row')

theorem Rewrites.keepsFinal {f : String → AgentRecord → AgentRecord} {ids : Finset String}
    (h : Rewrites d d' f)
    (hf : ∀ id ∈ ids, ∀ row, (d .executions).lookup id = some row → Final row → Final (f id row)) :
    KeepsFinal ids d d' := by
  intro id hid row' hk
  rcases hk with hk | hk
  · rw [h.executions, Option.map_eq_some_iff] at hk
    obtain ⟨row, hk, rfl⟩ := hk
    exact ⟨row, .inl hk, hf id hid row hk⟩
  · rw [h.archive] at hk
    exact ⟨row', .inr hk, fun hr => hr⟩

theorem KeepsFinal.refl {ids : Finset String} : KeepsFinal ids d d :=
  fun _ _ row' hk => ⟨row', hk, fun hr => hr⟩

section Keeps

variable {ids listed : Finset String}

theorem keepsFinal_setPane {executionId paneId : String} {r : Option (AgentRecord × AgentRecord)}
    (h : (setPane executionId paneId listed).exec History.inline d = .ok (r, d')) : KeepsFinal ids d d' := by
  rcases setPane_ok h with ⟨row, hk, hw⟩ | ⟨row, hn, hk, he, ha⟩
  · refine hw.keepsFinal fun id _ old hl hf => ?_
    split
    case isTrue hi =>
      obtain rfl := Option.some.inj (hl.symm.trans (hi ▸ hk))
      exact hf
    case isFalse => exact hf
  · intro id _ row' hr
    by_cases hi : id = executionId
    case pos =>
      subst hi
      simp only [Filed, he, ha] at hr
      simp at hr
      exact ⟨row, .inr hk, fun hf => hr ▸ hf⟩
    case neg =>
      refine ⟨row', ?_, fun hf => hf⟩
      simpa [Filed, he, ha, hi] using hr

theorem keepsFinal_archive {r : ℕ} (h : (archive listed).exec History.inline d = .ok (r, d')) :
    KeepsFinal ids d d' := by
  obtain ⟨he, ha⟩ := archive_ok h
  intro id _ row' hr
  rcases hr with hr | hr
  · rw [he, Option.filter_eq_some_iff] at hr
    exact ⟨row', .inl hr.left, fun hf => hf⟩
  · rw [ha, Option.map_eq_some_iff] at hr
    obtain ⟨row, hr, rfl⟩ := hr
    rw [Option.or_eq_some_iff, Option.filter_eq_some_iff] at hr
    rcases hr with ⟨hr, _⟩ | ⟨_, hr⟩
    · exact ⟨row, .inl hr, fun hf => hf⟩
    · exact ⟨row, .inr hr, fun hf => hf⟩

theorem keepsFinal_endOrphan {r : Bool} {now : Int} (ho : Own (d .executions))
    (h : (endOrphan agent now listed).exec History.inline d = .ok (r, d')) : KeepsFinal ids d d' := by
  have hc := endOrphan_ok ho h
  cases r
  case false =>
    replace hc : d' = d := hc
    exact hc ▸ .refl
  case true =>
    refine hc.2.2.2.keepsFinal fun id _ row _ hf => ?_
    split
    · exact .inr rfl
    · exact hf

theorem keepsFinal_dropAgent {r : Bool} {name : String} {live : Finset String} {expected : Option String}
    (h : (dropAgent name live expected).exec History.inline d = .ok (r, d')) : KeepsFinal ids d d' := by
  have hc := dropAgent_ok h
  cases r
  case false =>
    replace hc : d' = d := hc
    exact hc ▸ .refl
  case true =>
    refine hc.right.keepsFinal fun id _ row _ hf => ?_
    split
    · exact .inr rfl
    · exact hf

end Keeps

theorem mem_inState {id : String} {state : AgentState} :
    id ∈ inState d state ↔ ∃ row, (d .executions).lookup id = some row ∧ row.state = state := by
  rw [inState, Finmap.mem_keys, ← Finmap.lookup_isSome, Finmap.lookup_build_of_support]
  · simp [Option.any_eq_true]
  · intro hk
    simp [Finmap.lookup_eq_none_of_notMem_keys hk]

theorem written_state : (written agent current).state = (keepFinished agent current).state := by
  unfold written keepBinding
  split <;> rfl

theorem written_state_of_ended (h : current.state = .ended) :
    (written agent current).state = agent.state := by
  simp [written_state, keepFinished, h]

-- The update of a final row gives a final row, but for one recorded ended that the writer still has
-- for live.
theorem final_written (hf : Final current) (h : current.state = .ended → Final agent) :
    Final (written agent current) := by
  rcases hf with hf | hf
  · unfold Final
    rw [written_state, keepFinished]
    by_cases ha : agent.state = .ended <;> simp [hf, ha]
  · have := h hf
    unfold Final at this ⊢
    rwa [written_state_of_ended hf]

namespace System

theorem commit_eq : s.commit e change =
    if e.Live s.document then (change.exec History.inline s.document).toOption else none := by
  unfold commit Event.Live
  rcases Option.eq_none_or_eq_some e.epoch with h | ⟨epoch, h⟩
  · simp [h, Lease.fenced]
  · simp only [h, Option.map_some, Lease.fenced, Held.exec_guarded, Option.mem_some, forall_eq']
    split <;> rfl

theorem commit_some (h : s.commit e change = some (a, d')) :
    e.Live s.document ∧ change.exec History.inline s.document = .ok (a, d') := by
  refine ⟨?_, commit_ok h⟩
  rw [commit_eq] at h
  split at h
  case isTrue hl => exact hl
  case isFalse   => cases h

-- A call either keeps final rows final or revives one; what it settles by itself is recorded ended.
inductive Outcome (s : System) (e : Event) (s' : System) : Prop
  | keeps (hs : ∀ id ∈ s'.settled, id ∈ s.settled ∨ id ∈ inState s'.document .ended)
      (hn : ¬s.Revives e) (hk : KeepsFinal s.settled s.document s'.document)
  | revives (hs : ∀ id ∈ s'.settled, id ∈ s.settled ∨ id ∈ inState s'.document .ended)
      (hr : s.Revives e) (id : String) (row : AgentRecord) (hi : id ∈ s'.settled)
      (hk : Filed s'.document id row) (hf : ¬Final row)

section Outcome


theorem outcome_refl (hr : ¬s.Revives e) : Outcome s e s :=
  .keeps (fun _ => .inl) hr .refl

theorem outcome_change (hr : ¬s.Revives e)
    (hk : ∀ {a d'}, change.exec History.inline s.document = .ok (a, d') → KeepsFinal s.settled s.document d') :
    Outcome s e (s.change e change) := by
  unfold System.change
  split
  case h_1     => exact outcome_refl hr
  case h_2 heq => exact .keeps (fun _ => .inl) hr (hk (commit_ok heq))

theorem outcome_start (h : Recorded uuid4 s) (hn : Sound s) {previousId : String} (hr : ¬s.Revives e)
    (hi : agent.executionId = "") : Outcome s e (s.start uuid4 e agent previousId) := by
  cases hc : s.commit e (do
    hydrateArchive
    admitAgent agent previousId (uuid4.hex s.drawn) e.epoch)
  case none   =>
    simp only [start, hc]
    exact .keeps (fun _ => .inl) hr .refl
  case some r =>
    have ha := admits_start hi hc
    have hsame : (s.start uuid4 e agent previousId).settled = s.settled := by simp [start, hc]
    refine .keeps (fun id hid => .inl (hsame ▸ hid)) hr fun id hid row' hk => ⟨row', ?_, fun hf => hf⟩
    obtain ⟨row, hf⟩ := hn.known id hid
    rw [(h.admitted ha).registered.filed_iff, Recorded.lookup_admitted ha, if_neg] at hk
    · exact h.registered.filed_iff.mpr hk
    · rintro rfl
      rw [h.registered.filed_iff, h.lookup_fresh ha] at hf
      cases hf

theorem outcome_update (h : Recorded uuid4 s) {names : Naming} {slug : String} {agent : AgentRecord}
    (he : e.call = .update names slug agent) (hv : validate names slug agent = .ok ()) :
    Outcome s e (s.change e (Execution.update agent)) := by
  unfold System.change
  split
  case h_1 hnone =>
    refine outcome_refl fun hr => ?_
    simp only [Revives, he] at hr
    obtain ⟨current, ho, _, _, _, _, hi, hb, hu, hl⟩ := hr
    obtain ⟨d', hx⟩ := exec_update ho hi hb hu
    simp [commit_eq, hl, hx, Except.toOption] at hnone
  case h_2 d' heq =>
    obtain ⟨hl, hx⟩ := commit_some heq
    obtain ⟨current, ho, hi, hb, hu, _, hw⟩ := update_ok h.registered.executions hx
    have hk : (s.document .executions).lookup agent.executionId = some current := by
      rw [hi.left]
      exact h.registered.executions.lookup_occupant ho
    by_cases hc : agent.executionId ∈ s.settled ∧ current.state = .ended ∧ ¬Final agent
    case pos =>
      obtain ⟨hid, hse, hf⟩ := hc
      have hr : s.Revives e := by
        simp only [Revives, he]
        exact ⟨current, ho, hi.left ▸ hid, hse, hf, hv, hi, hb, hu, hl⟩
      refine .revives (fun _ => .inl) hr agent.executionId (written agent current) hid (.inl ?_) ?_
      · simp [hw.executions, hk]
      · unfold Final at hf ⊢
        rwa [written_state_of_ended hse]
    case neg =>
      have hr : ¬s.Revives e := by
        simp only [Revives, he]
        rintro ⟨current', ho', hid, hse, hf, _, hi', _⟩
        obtain rfl := Option.some.inj (ho.symm.trans ho')
        exact hc ⟨hi'.left ▸ hid, hse, hf⟩
      refine .keeps (fun _ => .inl) hr <| hw.keepsFinal fun id hid row hrow hf => ?_
      split
      case isFalse => exact hf
      case isTrue hie =>
        subst hie
        obtain rfl := Option.some.inj (hrow.symm.trans hk)
        refine final_written hf fun hse => ?_
        by_contra hna
        exact hc ⟨hid, hse, hna⟩

theorem outcome_undo (hn : Sound s) {listed : Finset String} (he : e.call = .confirmOrphan agent listed)
    (hm : agent ∈ s.ending) (hl : agent.name ∈ listed) :
    Outcome s e (System.change { s with ending := s.ending.erase agent } e (undo agent)) := by
  have hcommit : System.commit { s with ending := s.ending.erase agent } e (undo agent) =
    s.commit e (undo agent) := rfl
  unfold System.change
  rw [hcommit]
  split
  case h_1 hnone =>
    refine .keeps (fun _ => .inl) (fun hr => ?_) .refl
    simp only [Revives, he] at hr
    have ⟨d', hx⟩ : ∃ d', (undo agent).exec History.inline s.document = .ok ((), d') := exec_undo
    simp [commit_eq, hr.2.2.2.2, hx, Except.toOption] at hnone
  case h_2 d' heq =>
    obtain ⟨hlive, hx⟩ := commit_some heq
    have hw := undo_ok hx
    by_cases hc : agent.executionId ∈ s.settled ∧
        (s.document .executions).lookup agent.executionId = some (ended agent)
    case pos =>
      have hr : s.Revives e := by
        simp only [Revives, he]
        exact ⟨hm, hl, hc.left, hc.right, hlive⟩
      refine .revives (fun _ => .inl) hr agent.executionId agent hc.left (.inl ?_) (hn.ending agent hm)
      simp [hw.executions, hc.right]
    case neg =>
      have hr : ¬s.Revives e := by
        simp only [Revives, he]
        exact fun hr => hc ⟨hr.2.2.1, hr.2.2.2.1⟩
      refine .keeps (fun _ => .inl) hr <| hw.keepsFinal fun id hid row hrow hf => ?_
      split
      case isFalse => exact hf
      case isTrue hie =>
        obtain ⟨rfl, rfl⟩ := hie
        exact absurd ⟨hid, hrow⟩ hc

theorem outcome_act (h : Recorded uuid4 s) (hn : Sound s) : Outcome s e (s.act uuid4 e) := by
  unfold act
  cases he : e.call
  case start names slug publication agent previousId =>
    have hr : ¬s.Revives e := by simp [Revives, he]
    dsimp only
    split
    case h_1    => exact outcome_refl hr
    case h_2 hp => exact outcome_start h hn hr (prepare_executionId hp)
  case update names slug agent =>
    dsimp only
    split
    case h_1 hv =>
      refine outcome_refl ?_
      simp [Revives, he, hv]
    case h_2 hv => exact outcome_update h he hv
  case setPane executionId paneId listed =>
    refine outcome_change (by simp [Revives, he]) fun hx => ?_
    simp [History.inline] at hx
    exact keepsFinal_setPane hx
  case archive listed =>
    exact outcome_change (by simp [Revives, he]) keepsFinal_archive
  case endOrphan agent now listed =>
    have hr : ¬s.Revives e := by simp [Revives, he]
    dsimp only
    split
    case h_1 heq =>
      exact .keeps (fun _ => .inl) hr (keepsFinal_endOrphan h.registered.executions (commit_ok heq))
    case h_2 => exact outcome_refl hr
  case confirmOrphan agent listed =>
    dsimp only
    split
    case isTrue hm =>
      refine outcome_refl ?_
      simp only [Revives, he]
      exact fun hr => hm hr.left
    case isFalse hm =>
      split
      case isTrue hl => exact outcome_undo hn he (not_not.mp hm) hl
      case isFalse hl =>
        refine .keeps (fun id hid => ?_) ?_ .refl
        · rw [Finset.mem_union, Finset.mem_inter] at hid
          exact hid.imp_right And.right
        · simp only [Revives, he]
          exact fun hr => hl hr.2.1
  case dropAgent name live expected =>
    have hr : ¬s.Revives e := by simp [Revives, he]
    dsimp only
    split
    case h_1 heq =>
      exact .keeps (fun _ => .inl) hr (keepsFinal_dropAgent (commit_ok heq))
    case h_2 => exact outcome_refl hr
  case confirmDrop name live =>
    have hr : ¬s.Revives e := by simp [Revives, he]
    dsimp only
    split
    case isTrue => exact outcome_refl hr
    case isFalse =>
      split
      case isFalse => exact .keeps (fun _ => .inl) hr .refl
      case isTrue =>
        refine .keeps (fun id hid => ?_) hr .refl
        rw [Finset.mem_union, Finset.mem_inter] at hid
        exact hid.imp_right And.right

end Outcome

theorem change_ending : (s.change e change).ending = s.ending := by
  unfold System.change
  split <;> rfl

theorem not_final_of_orphanState {now : Int} (h : OrphanState agent now) : ¬Final agent := by
  unfold OrphanState at h
  intro hf
  rcases hf with hf | hf <;> simp [hf] at h

theorem ending_act (h : Recorded uuid4 s) :
    ∀ agent ∈ (s.act uuid4 e).ending, agent ∈ s.ending ∨ ¬Final agent := by
  intro new hm
  unfold act at hm
  cases he : e.call <;> rw [he] at hm <;> dsimp only at hm
  case start names slug publication agent previousId =>
    split at hm
    · exact .inl hm
    · refine .inl ?_
      unfold System.start at hm
      dsimp only at hm
      split at hm <;> exact hm
  case update =>
    split at hm
    · exact .inl hm
    · exact .inl (change_ending ▸ hm)
  case setPane => exact .inl (change_ending ▸ hm)
  case archive => exact .inl (change_ending ▸ hm)
  case endOrphan agent now listed =>
    split at hm
    case h_2 => exact .inl hm
    case h_1 heq =>
      rcases List.mem_cons.mp hm with rfl | hm
      · have hc := endOrphan_ok h.registered.executions (commit_ok heq)
        exact .inr (not_final_of_orphanState hc.2.1)
      · exact .inl hm
  case confirmOrphan agent listed =>
    split at hm
    · exact .inl hm
    · split at hm
      · rw [change_ending] at hm
        exact .inl (List.mem_of_mem_erase hm)
      · exact .inl (List.mem_of_mem_erase hm)
  case dropAgent =>
    split at hm <;> exact .inl hm
  case confirmDrop =>
    split at hm
    · exact .inl hm
    · split at hm <;> exact .inl hm

theorem mem_settled_step {id : String} :
    id ∈ (s.step uuid4 e).settled ↔
      id ∈ (s.act uuid4 e).settled ∨ id ∈ inState (s.act uuid4 e).document .finished :=
  Finset.mem_union

theorem filed_of_inState {id : String} {state : AgentState} (h : id ∈ inState d state) :
    ∃ row, Filed d id row ∧ row.state = state := by
  obtain ⟨row, hk, hs⟩ := mem_inState.mp h
  exact ⟨row, .inl hk, hs⟩

theorem sound_step (h : Recorded uuid4 s) (hn : Sound s) : Sound (s.step uuid4 e) where
  ending := fun agent hm => (ending_act h agent hm).elim (hn.ending agent) id
  known  := fun id hid => by
    have hold (hid : id ∈ s.settled) : ∃ row, Filed (s.step uuid4 e).document id row := by
      obtain ⟨row, hk⟩ := hn.known id hid
      obtain ⟨row', hk', _⟩ := h.extends_step (e := e) hk
      exact ⟨row', hk'⟩
    rcases mem_settled_step.mp hid with hid | hid
    · have hs : ∀ id ∈ (s.act uuid4 e).settled,
          id ∈ s.settled ∨ id ∈ inState (s.act uuid4 e).document .ended := by
        cases outcome_act (e := e) h hn <;> assumption
      rcases hs id hid with hid | hid
      · exact hold hid
      · obtain ⟨row, hk, _⟩ := filed_of_inState hid
        exact ⟨row, hk⟩
    · obtain ⟨row, hk, _⟩ := filed_of_inState hid
      exact ⟨row, hk⟩

-- The settled executions stay settled over a step exactly when the step does not revive one.
theorem settled_step (h : Recorded uuid4 s) (hn : Sound s) (hs : Settled s) :
    Settled (s.step uuid4 e) ↔ ¬s.Revives e := by
  have hfun := (h.step (e := e)).consistent.functional
  have ho : Outcome s e (s.act uuid4 e) := outcome_act h hn
  cases ho
  case revives _ hr id row hid hk hf =>
    refine iff_of_false (fun hc => ?_) (not_not.mpr hr)
    exact hf (hc id (mem_settled_step.mpr (.inl hid)) row hk)
  case keeps hnew hr hk =>
    refine iff_of_true (fun id hid row' hrow => ?_) hr
    have hin {state : AgentState} (hin : id ∈ inState (s.step uuid4 e).document state) :
        row'.state = state := by
      obtain ⟨row, hf, hst⟩ := filed_of_inState hin
      exact hfun _ _ _ hrow hf ▸ hst
    rcases mem_settled_step.mp hid with hid | hid
    · rcases hnew id hid with hid | hid
      · obtain ⟨row, hf, himp⟩ := hk id hid row' hrow
        exact himp (hs id hid row hf)
      · exact .inr (hin hid)
    · exact .inl (hin hid)

-- In the runs from an empty swarm none of whose calls revives an execution, and in no others, every
-- state reached has all its settled executions finished or ended.
theorem settled_iff (uuid4 : Supply) (es : List Event) :
    Run.Along (step uuid4) (fun s e => Settled (s.step uuid4 e)) .empty es ↔
      Run.Along (step uuid4) (fun s e => ¬s.Revives e) .empty es := by
  suffices h : ∀ s, Recorded uuid4 s → Sound s → Settled s →
      (Run.Along (step uuid4) (fun s e => Settled (s.step uuid4 e)) s es ↔
        Run.Along (step uuid4) (fun s e => ¬s.Revives e) s es) from
    h .empty .empty ⟨by simp [System.empty], by simp [System.empty]⟩ (by simp [Settled, System.empty])
  induction es
  case nil => simp
  case cons e es hi =>
    intro s h hn hs
    simp only [Run.Along.cons, settled_step h hn hs]
    refine and_congr_right fun hr => hi _ h.step (sound_step h hn) ?_
    exact (settled_step h hn hs).mpr hr

-- The agent `a` is started and dropped, and a caller that read it while it was working writes it back.
def lateWrite : List Event :=
  let agent : AgentRecord := ⟨"a", "lane", "task", "", "", 0, .working, "", "", "seat@s", ⟨none, ∅⟩, 0, "[]",
    "", 0, .local, ∅, "", "", ∅⟩
  let names : Naming := ⟨id, fun _ => true, fun _ => "s", fun _ => true⟩
  [⟨none, 0, .start names "s" false agent ""⟩,
   ⟨none, 0, .dropAgent "a" {"exe-"} none⟩,
   ⟨none, 0, .confirmDrop "a" {"exe-"}⟩,
   ⟨none, 0, .update names "s" { agent with executionId := "exe-", generation := 1 }⟩]

-- The execution whose retirement was returned is working again.
theorem lateWrite_revives : ¬Settled (run .unary lateWrite) := by
  intro h
  have hs : "exe-" ∈ (run .unary lateWrite).settled := by decide
  have hw : (((run .unary lateWrite).document .executions).lookup "exe-").any (·.state = .working) := by
    decide
  obtain ⟨row, hk, hr⟩ := Option.any_eq_true .. |>.mp hw
  have hf := h "exe-" hs row (.inl hk)
  simp [Final, of_decide_eq_true hr] at hf

end System
end Execution
