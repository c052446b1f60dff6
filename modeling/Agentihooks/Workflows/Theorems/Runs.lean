import Mathlib.Data.Finset.Max
import Mathlib.Logic.Relation
import Agentihooks.Workflows.Machine
import Agentihooks.Workflows.Theorems.Schema

namespace Workflows

section Advance

variable {w : Workflow} {s s' : State} {c : Call} {current : Stage} {o : Outcome}

-- A call is for the stage that the run is at.
structure Ready (w : Workflow) (s : State) (c : Call) (asked : Outcome) (current : Stage) : Prop where
  running : s.status = .running
  stage   : s.stage = some c.stage
  asked   : Outcome.ofName c.outcome = some asked
  current : w.stage c.stage = some current

def after (s : State) (c : Call) : State :=
  { s with
    visit   := s.visit + 1
    runs    := s.runs.insert c.stage ((s.runs.lookup c.stage).getD 0 + 1)
    outputs := s.outputs.insert c.stage c.outputs }

-- The edge that a call follows, if the stage does not run again and the workflow's exit does not end it.
def followed (w : Workflow) (s : State) (c : Call) : Option Outcome :=
  match Outcome.ofName c.outcome, w.stage c.stage with
  | some asked, some current =>
    match stageOutcome current (s.visit + 1) asked c.outputs c.check with
    | .ok outcome => if workflowExit w c.stage outcome (after s c).outputs c.check then none else outcome
    | .error _    => none
  | _, _ => none

-- The retry and enhance edges that a run follows.
def loops (w : Workflow) (s : State) : List Call → ℕ
  | []      => 0
  | c :: cs => (if (c.advance w s).isOk ∧ (followed w s c).any Outcome.loops then 1 else 0) + loops w (step w s c) cs

-- All that an accepted call can be.
inductive Advances (w : Workflow) (s : State) (c : Call) (current : Stage) : Option Outcome → State → Prop
  | again (hv : s.visit + 1 < current.iterations) : Advances w s c current none (after s c)
  | exited : Advances w s c current none (finished (after s c) .passed)
  | exhausted (o : Outcome) (x : State) (hl : o.loops) (hi : x.iterations = s.iterations + 1)
    (hm : w.maxIterations ≤ s.iterations + 1) : Advances w s c current (some o) (finished x .exhausted)
  | passed (o : Outcome) (x : State) (hi : x.iterations = if o.loops then s.iterations + 1 else s.iterations)
    (hm : o.loops → s.iterations + 1 < w.maxIterations) : Advances w s c current (some o) (finished x .passed)
  | moved (o : Outcome) (target : String) (x : State) (ht : current.next o = some target) (he : target ≠ exit)
    (hp : o = .pass → stagePass w.exit ≠ some c.stage) (hs : x.status = .running) (hst : x.stage = some target)
    (hvisit : s.visit + 1 ≤ current.iterations) (hv : x.visit = if target = current.id then s.visit + 1 else 0)
    (hi : x.iterations = if o.loops then s.iterations + 1 else s.iterations)
    (hm : o.loops → s.iterations + 1 < w.maxIterations) : Advances w s c current (some o) x

theorem follow_ok {x : State} (hr : s.status = .running) (hp : o = .pass → stagePass w.exit ≠ some c.stage)
    (hv : s.visit + 1 ≤ current.iterations) (h : follow w current (after s c) o c.outputs = .ok x) :
    Advances w s c current (some o) x := by
  unfold follow at h
  split at h
  case h_1 => cases h
  case h_2 target ht =>
    extract_lets x₁ at h
    have hi : x₁.iterations = if o.loops then s.iterations + 1 else s.iterations := by
      dsimp only [x₁]
      split <;> rfl
    have hvisit : x₁.visit = s.visit + 1 := by
      dsimp only [x₁]
      split <;> rfl
    have hs : x₁.status = .running := by
      dsimp only [x₁]
      split <;> exact hr
    split at h
    case isTrue hl =>
      obtain rfl := Except.ok.inj h
      rw [hi, if_pos hl.left] at hl
      exact .exhausted o _ hl.left (by simpa [hl.left] using hi) hl.right
    case isFalse hl =>
      have hm : o.loops → s.iterations + 1 < w.maxIterations := by
        intro ho
        rw [hi, if_pos ho, not_and] at hl
        exact not_le.mp (hl ho)
      split at h
      case isTrue he =>
        obtain rfl := Except.ok.inj h
        exact .passed o x₁ hi hm
      case isFalse he =>
        obtain rfl := Except.ok.inj h
        refine .moved o target _ ht he hp hs rfl hv ?_ hi hm
        by_cases hid : target = current.id
        case pos => simp [hid, hvisit]
        case neg => simp [hid]

theorem checkAdvance_ok {asked : Outcome} (h : checkAdvance s c.stage c.outcome = .ok asked) :
    s.status = .running ∧ s.stage = some c.stage ∧ Outcome.ofName c.outcome = some asked := by
  unfold checkAdvance at h
  split at h
  case isTrue => cases h
  case isFalse hr =>
    split at h
    case isTrue => cases h
    case isFalse hs =>
      split at h
      case h_2 => cases h
      case h_1 o ho =>
        obtain rfl := Except.ok.inj h
        exact ⟨not_not.mp hr, (not_not.mp hs).symm, ho⟩

theorem stageOutcome_ok {visit : ℕ} {asked : Outcome} {r : Option Outcome}
    (h : stageOutcome current visit asked c.outputs c.check = .ok r) :
    visit ≤ current.iterations ∧ (r = none → visit < current.iterations) := by
  unfold stageOutcome at h
  split at h
  case isTrue => cases h
  case isFalse hv =>
    refine ⟨not_lt.mp hv, fun hr => ?_⟩
    subst hr
    split at h
    case h_1 => cases h
    case h_2 =>
      split at h
      case isTrue => cases h
      case isFalse =>
        by_contra hn
        simp [hn] at h

theorem advance_ready {asked : Outcome} (hr : Ready w s c asked current) :
    c.advance w s = (stageOutcome current (s.visit + 1) asked c.outputs c.check).bind fun outcome =>
      if workflowExit w c.stage outcome (after s c).outputs c.check then .ok (finished (after s c) .passed)
      else match outcome with
        | none   => .ok (after s c)
        | some o => follow w current (after s c) o c.outputs := by
  have hcheck : checkAdvance s c.stage c.outcome = .ok asked := by
    simp [checkAdvance, hr.running, hr.stage, hr.asked]
  simp only [Call.advance, advance, bind, hcheck, hr.current, Except.bind]
  rfl

theorem ready_of_ok (h : c.advance w s = .ok s') : ∃ asked current, Ready w s c asked current := by
  cases hcheck : checkAdvance s c.stage c.outcome with
  | error e =>
    rw [Call.advance, advance, hcheck] at h
    cases h
  | ok asked =>
    obtain ⟨hr, hs, ho⟩ := checkAdvance_ok hcheck
    cases hc : w.stage c.stage with
    | none         =>
      rw [Call.advance, advance, hcheck, hc] at h
      cases h
    | some current => exact ⟨asked, current, hr, hs, ho, hc⟩

theorem followed_ready {asked : Outcome} {r : Option Outcome} (hr : Ready w s c asked current)
    (ho : stageOutcome current (s.visit + 1) asked c.outputs c.check = .ok r) :
    followed w s c = if workflowExit w c.stage r (after s c).outputs c.check then none else r := by
  rw [followed, hr.asked, hr.current]
  simp only [ho]

theorem advance_ok (h : c.advance w s = .ok s') :
    ∃ asked current, Ready w s c asked current ∧ Advances w s c current (followed w s c) s' := by
  obtain ⟨asked, current, hr⟩ := ready_of_ok h
  refine ⟨asked, current, hr, ?_⟩
  rw [advance_ready hr] at h
  cases ho : stageOutcome current (s.visit + 1) asked c.outputs c.check with
  | error e =>
    rw [ho] at h
    cases h
  | ok r    =>
    obtain ⟨hv, hagain⟩ := stageOutcome_ok ho
    rw [ho, Except.bind] at h
    rw [followed_ready hr ho]
    split at h
    case isTrue hw =>
      obtain rfl := Except.ok.inj h
      rw [if_pos hw]
      exact .exited
    case isFalse hw =>
      rw [if_neg hw]
      split at h
      case h_1 =>
        obtain rfl := Except.ok.inj h
        exact .again (hagain rfl)
      case h_2 o =>
        refine follow_ok hr.running (fun hpass hid => hw ?_) hv h
        simp [workflowExit, hid, hpass]

theorem step_ok (h : c.advance w s = .ok s') : step w s c = s' := by
  simp [step, h, Except.toOption]

theorem step_error {e : String} (h : c.advance w s = .error e) : step w s c = s := by
  simp [step, h, Except.toOption]

-- A call is refused and changes nothing, or it advances.
theorem step_cases (w : Workflow) (s : State) (c : Call) :
    ((c.advance w s).isOk = false ∧ step w s c = s) ∨ ((c.advance w s).isOk = true ∧
      ∃ asked current, Ready w s c asked current ∧ Advances w s c current (followed w s c) (step w s c)) := by
  cases h : c.advance w s with
  | error e => exact .inl ⟨rfl, step_error h⟩
  | ok s'   => exact .inr ⟨rfl, step_ok h ▸ advance_ok h⟩

theorem follow_edge {x : State} {e : String} (h : follow w current x o c.outputs = .error e) : current.next o = none := by
  unfold follow at h
  split at h
  case h_1 hn => exact hn
  case h_2    =>
    extract_lets x at h
    split at h
    case isTrue  => cases h
    case isFalse => split at h <;> cases h

-- With an edge for the outcome that is asked for, a call is refused only where the stage has used its iterations, or
-- where its exit check calls it a pass and it has no such edge.
theorem refused {asked : Outcome} {e : String} (hr : Ready w s c asked current) (ht : current.next asked ≠ none)
    (hv : s.visit < current.iterations) (h : c.advance w s = .error e) :
    ∃ text, current.exit = some text ∧ c.check.stage text c.outputs = true ∧ current.next .pass = none := by
  have hedge (r : Option Outcome) (hr' : stageOutcome current (s.visit + 1) asked c.outputs c.check = .ok r) :
      ∃ o, r = some o ∧ current.next o = none := by
    rw [advance_ready hr, hr'] at h
    simp only [Except.bind] at h
    split at h
    case isTrue  => cases h
    case isFalse =>
      split at h
      case h_1     => cases h
      case h_2 o _ => exact ⟨o, rfl, follow_edge h⟩
  have hvisit : ¬current.iterations < s.visit + 1 := by omega
  cases hx : current.exit with
  | none      =>
    obtain ⟨o, ho, hn⟩ := hedge (some asked) (by simp [stageOutcome, hvisit, hx])
    cases ho
    exact absurd hn ht
  | some text =>
    by_cases hyes : c.check.stage text c.outputs = true
    case pos =>
      obtain ⟨o, ho, hn⟩ := hedge (some .pass) (by simp [stageOutcome, hvisit, hx, hyes])
      cases ho
      exact ⟨text, rfl, hyes, hn⟩
    case neg =>
      obtain ⟨o, ho, hn⟩ := hedge (if s.visit + 1 < current.iterations then none else some asked)
        (by simp [stageOutcome, hvisit, hx, hyes])
      obtain ⟨_, rfl⟩ : ¬s.visit + 1 < current.iterations ∧ asked = o := by simpa using ho
      exact absurd hn ht

end Advance

section Sound

variable {w : Workflow} {s : State} {c : Call} {cs : List Call} {id : String}

-- What holds of every state of a run.
structure Sound (w : Workflow) (s : State) : Prop where
  iterations : s.iterations ≤ w.maxIterations
  loops      : s.status = .running → s.iterations < w.maxIterations
  stage      : s.status = .running → ∃ id st, s.stage = some id ∧ w.stage id = some st ∧ s.visit ≤ st.iterations ∧
    (s.visit = st.iterations → ∃ o, st.next o = some id)

theorem Sound.start (hw : Valid w) : Sound w (start w) where
  iterations := Nat.zero_le _
  loops      := fun _ => hw.max
  stage      := by
    intro _
    obtain ⟨st, hst⟩ := hw.head
    have hpos := (hw.stages _ st hst).right.left
    refine ⟨w.head, st, rfl, hst, Nat.zero_le _, fun h => ?_⟩
    simp only [Workflows.start] at h
    omega

theorem Sound.ended (hi : s.iterations ≤ w.maxIterations) (he : s.status ≠ .running) : Sound w s :=
  ⟨hi, fun h => absurd h he, fun h => absurd h he⟩

theorem Sound.step (hw : Valid w) (hs : Sound w s) : Sound w (Workflows.step w s c) := by
  obtain ⟨_, he⟩ | ⟨_, asked, current, hr, ha⟩ := step_cases w s c
  · rw [he]
    exact hs
  generalize Workflows.step w s c = s' at ha ⊢
  generalize followed w s c = f at ha
  have hlt := hs.loops hr.running
  cases ha with
  | again hv =>
    exact ⟨hs.iterations, fun _ => hlt, fun _ => ⟨c.stage, current, hr.stage, hr.current, hv.le, fun he => absurd he hv.ne⟩⟩
  | exited => exact .ended hs.iterations (by simp [finished])
  | exhausted o x hl hi hm => exact .ended (hi.trans_le hlt) (by simp [finished])
  | passed o x hi hm =>
    refine .ended (hi.trans_le ?_) (by simp [finished])
    split <;> omega
  | moved o target x ht he hp hs' hst hvisit hv hi hm =>
    have hle : s'.iterations < w.maxIterations := by
      rw [hi]
      split
      case isTrue ho  => exact hm ho
      case isFalse    => exact hlt
    refine ⟨hle.le, fun _ => hle, fun _ => ?_⟩
    obtain ⟨hid, _, hnext⟩ := hw.stages _ _ hr.current
    by_cases hself : target = current.id
    case pos =>
      subst hself
      refine ⟨current.id, current, hst, hid.symm ▸ hr.current, ?_, fun _ => ⟨o, ht⟩⟩
      simpa [hv] using hvisit
    case neg =>
      obtain rfl | ⟨st, htarget⟩ := hnext o target ht
      · exact absurd rfl he
      · have hpos := (hw.stages _ st htarget).right.left
        refine ⟨target, st, hst, htarget, ?_, fun h => ?_⟩
        · simp [hv, hself]
        · rw [hv, if_neg hself] at h
          omega

theorem Sound.run (hw : Valid w) (cs : List Call) : Sound w (Run.run (Workflows.step w) (Workflows.start w) cs) :=
  Run.invariant (fun _ _ => Sound.step hw) (.start hw)

-- The state counts the retry and enhance edges that the run has followed.
theorem loops_run (s : State) (cs : List Call) : (Run.run (step w) s cs).iterations = s.iterations + loops w s cs := by
  induction cs generalizing s
  case nil          => simp [loops]
  case cons c cs hi =>
    rw [Run.run_cons, hi, loops]
    obtain ⟨hok, he⟩ | ⟨hok, asked, current, _, ha⟩ := step_cases w s c
    · simp [hok, he]
    · generalize step w s c = s' at ha ⊢
      generalize followed w s c = f at ha ⊢
      cases ha with
      | again                  => simp [after]
      | exited                 => simp [finished, after]
      | exhausted o x hl hi    => simp [finished, hok, hl, hi, Nat.add_assoc]
      | passed o x hi          => cases ho : o.loops <;> simp [finished, hok, ho, hi, Nat.add_assoc]
      | moved o _ _ _ _ _ _ _ _ _ hi => cases ho : o.loops <;> simp [hok, ho, hi, Nat.add_assoc]

end Sound

section Bound

variable {w : Workflow} {s s' : State} {c : Call} {cs : List Call} {id target : String}

-- A pass edge from one stage to another that the workflow's exit does not come before.
def Passes (w : Workflow) (id target : String) : Prop :=
  ∃ st, w.stage id = some st ∧ st.next .pass = some target ∧ target ≠ exit ∧ target ≠ id ∧ stagePass w.exit ≠ some id

-- A run is at a stage with iterations left.
structure At (w : Workflow) (s : State) (id : String) : Prop where
  running : s.status = .running
  stage   : s.stage = some id
  visit   : ∃ st, w.stage id = some st ∧ s.visit < st.iterations

theorem accepted_append {cs₁ cs₂ : List Call} :
    accepted w s (cs₁ ++ cs₂) = accepted w s cs₁ + accepted w (Run.run (step w) s cs₁) cs₂ := by
  induction cs₁ generalizing s
  case nil     => simp [accepted]
  case cons hi => simp [accepted, hi, Nat.add_assoc]

-- The call that follows a pass edge: the stage's exit check says yes, the workflow's says no.
def passCall (id : String) : Call :=
  ⟨id, "pass", Json.empty, ⟨fun _ _ => true, fun _ _ => false⟩⟩

theorem At.pass (hw : Valid w) (h : At w s id) (hp : Passes w id target) :
    ((passCall id).advance w s).isOk ∧ At w (step w s (passCall id)) target := by
  obtain ⟨st, hst, hv⟩ := h.visit
  obtain ⟨st', hst', hnext, he, hne, hexit⟩ := hp
  obtain rfl : st = st' := Option.some.inj (hst.symm.trans hst')
  obtain ⟨hid, _, hedges⟩ := hw.stages id st hst
  have hr : Ready w s (passCall id) .pass st := ⟨h.running, h.stage, rfl, hst⟩
  have hpass : stageOutcome st (s.visit + 1) .pass Json.empty (passCall id).check = .ok (some .pass) := by
    simp only [stageOutcome, passCall, if_neg (not_lt.mpr (Nat.succ_le_of_lt hv))]
    split <;> rfl
  have hstay : workflowExit w id (some .pass) (after s (passCall id)).outputs (passCall id).check = false := by
    cases ho : stagePass w.exit with
    | none       => simp [workflowExit, ho, passCall]
    | some other =>
      have hother : other ≠ id := by
        rintro rfl
        exact hexit ho
      simp [workflowExit, ho, hother]
  have hok : (passCall id).advance w s = .ok { after s (passCall id) with visit := 0, stage := some target } := by
    rw [advance_ready hr]
    change (stageOutcome st _ _ Json.empty _).bind _ = _
    rw [hpass]
    change (if workflowExit w id _ _ _ = true then _ else _) = _
    rw [hstay]
    simp [follow, hnext, he, Outcome.loops, hid, hne]
  refine ⟨by rw [hok]; rfl, ?_⟩
  rw [step_ok hok]
  obtain rfl | ⟨st', htarget⟩ := hedges .pass target hnext
  · exact absurd rfl he
  · exact ⟨h.running, rfl, st', htarget, (hw.stages _ st' htarget).right.left⟩

theorem At.passes (hw : Valid w) (h : At w s id) (hp : Relation.TransGen (Passes w) id target) :
    ∃ cs, 1 ≤ accepted w s cs ∧ At w (Run.run (step w) s cs) target := by
  induction hp with
  | single hp =>
    obtain ⟨hok, ht⟩ := h.pass hw hp
    exact ⟨[passCall id], by simp [accepted, hok], ht⟩
  | tail _ hp hi =>
    obtain ⟨cs, hle, hat⟩ := hi
    obtain ⟨_, ht⟩ := hat.pass hw hp
    exact ⟨cs ++ [passCall _], by rw [accepted_append]; omega, by rw [Run.run_concat]; exact ht⟩

-- Round a cycle of pass edges a run goes on for as long as it is asked to.
theorem At.unbounded (hw : Valid w) (h : At w s id) (hp : Relation.TransGen (Passes w) id id) (n : ℕ) :
    ∃ cs, n ≤ accepted w s cs ∧ At w (Run.run (step w) s cs) id := by
  induction n
  case zero    => exact ⟨[], Nat.zero_le _, h⟩
  case succ hi =>
    obtain ⟨cs, hle, hat⟩ := hi
    obtain ⟨cs', hle', hat'⟩ := hat.passes hw hp
    exact ⟨cs ++ cs', by rw [accepted_append]; omega, by rw [Run.run_append]; exact hat'⟩

def ids (w : Workflow) : Finset String :=
  (w.stages.map Prod.fst).toFinset

-- The most iterations of a stage.
def most (w : Workflow) : ℕ :=
  (w.stages.map (·.2.iterations)).foldr max 0

theorem mem_stages {st : Stage} (h : w.stage id = some st) : (id, st) ∈ w.stages := by
  obtain ⟨_, _, he, _⟩ := List.lookup_eq_some_iff.mp h
  rw [he]
  simp

theorem mem_ids {st : Stage} (h : w.stage id = some st) : id ∈ ids w :=
  List.mem_toFinset.mpr (List.mem_map_of_mem (mem_stages h))

theorem le_most {st : Stage} (h : w.stage id = some st) : st.iterations ≤ most w := by
  have hmem := List.mem_map_of_mem (f := fun x : String × Stage => x.2.iterations) (mem_stages h)
  unfold most
  generalize w.stages.map (fun x => x.2.iterations) = xs at hmem
  induction xs
  case nil          => cases hmem
  case cons x xs hi =>
    obtain rfl | hmem := List.mem_cons.mp hmem
    · exact le_max_left ..
    · exact (hi hmem).trans (le_max_right ..)

open Classical in
-- How many stages pass edges can still come to.
noncomputable def rank (w : Workflow) (id : String) : ℕ :=
  ((ids w).filter (Relation.TransGen (Passes w) id)).card

theorem rank_le : rank w id ≤ (ids w).card := by
  classical
  exact Finset.card_filter_le ..

theorem rank_lt {st : Stage} (hp : Passes w id target) (ht : w.stage target = some st)
    (hc : ¬Relation.TransGen (Passes w) target target) : rank w target < rank w id := by
  classical
  refine Finset.card_lt_card (Finset.ssubset_iff_of_subset (fun x hx => ?_) |>.mpr ⟨target, ?_, ?_⟩)
  · obtain ⟨hmem, hx⟩ := Finset.mem_filter.mp hx
    exact Finset.mem_filter.mpr ⟨hmem, .head hp hx⟩
  · exact Finset.mem_filter.mpr ⟨mem_ids ht, .single hp⟩
  · exact fun hx => hc (Finset.mem_filter.mp hx).right

-- How many calls a run can still accept: loop edges count down first, then the stages that pass edges can come to, then
-- the iterations of the stage.
noncomputable def budget (w : Workflow) (s : State) : ℕ :=
  if s.status = .running then
    ((w.maxIterations - s.iterations) * ((ids w).card + 1) + rank w (s.stage.getD "")) * (most w + 1) +
      (most w - s.visit) + 1
  else 0

def Safe (w : Workflow) (s : State) : Prop :=
  ∀ cs id, At w (Run.run (step w) s cs) id → ¬Relation.TransGen (Passes w) id id

theorem Safe.step (h : Safe w s) : Safe w (step w s c) :=
  fun cs => h (c :: cs)

theorem budget_step (hw : Valid w) (hs : Sound w s) (h : Safe w s) (hok : (c.advance w s).isOk) :
    budget w (step w s c) + 1 ≤ budget w s := by
  obtain ⟨hno, _⟩ | ⟨_, asked, current, hr, ha⟩ := step_cases w s c
  · rw [hno] at hok; cases hok
  have hsafe := h [c]
  have hb : budget w s = ((w.maxIterations - s.iterations) * ((ids w).card + 1) + rank w c.stage) * (most w + 1) +
      (most w - s.visit) + 1 := by
    rw [budget, if_pos hr.running, hr.stage]
    rfl
  have hmost := le_most hr.current
  rw [Run.run_cons, Run.run_nil] at hsafe
  rw [hb]
  generalize Workflows.step w s c = s' at ha hsafe ⊢
  generalize followed w s c = f at ha
  have ended {x : State} (hx : x.status ≠ .running) : budget w x = 0 := if_neg hx
  cases ha with
  | again hv =>
    have hb' : budget w (after s c) = ((w.maxIterations - s.iterations) * ((ids w).card + 1) + rank w c.stage) *
        (most w + 1) + (most w - (s.visit + 1)) + 1 := by
      rw [budget, if_pos (show (after s c).status = _ from hr.running), show (after s c).stage = _ from hr.stage]
      rfl
    omega
  | exited             => rw [ended (by simp [finished])]; omega
  | exhausted o x      => rw [ended (by simp [finished])]; omega
  | passed o x         => rw [ended (by simp [finished])]; omega
  | moved o target x ht he hp hrun hst hvisit hv hi hm =>
    have hb' : budget w s' = ((w.maxIterations - s'.iterations) * ((ids w).card + 1) + rank w target) * (most w + 1) +
        (most w - s'.visit) + 1 := by
      rw [budget, if_pos hrun, hst]
      rfl
    obtain ⟨hid, _, hedges⟩ := hw.stages _ _ hr.current
    have hlt := hs.loops hr.running
    have less {m n : ℕ} (hmn : m + 1 ≤ n) : m * (most w + 1) + (most w + 1) ≤ n * (most w + 1) :=
      (Nat.succ_mul m _).symm.trans_le (Nat.mul_le_mul_right _ hmn)
    cases ho : o.loops with
    | true  =>
      have hn := hm ho
      have hrank : rank w target ≤ (ids w).card := rank_le
      have hone : (w.maxIterations - s.iterations) * ((ids w).card + 1) =
          (w.maxIterations - (s.iterations + 1)) * ((ids w).card + 1) + ((ids w).card + 1) := by
        rw [← Nat.succ_mul, show (w.maxIterations - (s.iterations + 1)).succ = w.maxIterations - s.iterations by omega]
      have hless := less (m := (w.maxIterations - (s.iterations + 1)) * ((ids w).card + 1) + rank w target)
        (n := (w.maxIterations - s.iterations) * ((ids w).card + 1) + rank w c.stage) (by omega)
      rw [hb', hi, if_pos ho]
      omega
    | false =>
      obtain rfl : o = .pass := by cases o <;> simp_all [Outcome.loops]
      rw [hb', hi, if_neg (by simp [Outcome.loops])]
      by_cases hself : target = current.id
      case pos =>
        rw [hv, if_pos hself, hself, hid]
        omega
      case neg =>
        obtain rfl | ⟨st, hstage⟩ := hedges .pass target ht
        · exact absurd rfl he
        · have hat : At w s' target := by
            refine ⟨hrun, hst, st, hstage, ?_⟩
            rw [hv, if_neg hself]
            exact (hw.stages _ st hstage).right.left
          have hpass : Passes w c.stage target := ⟨current, hr.current, ht, he, hid ▸ hself, hp rfl⟩
          have hrank := rank_lt hpass hstage (hsafe target hat)
          have hless := less (m := (w.maxIterations - s.iterations) * ((ids w).card + 1) + rank w target)
            (n := (w.maxIterations - s.iterations) * ((ids w).card + 1) + rank w c.stage) (by omega)
          omega

theorem accepted_le (hw : Valid w) (hs : Sound w s) (h : Safe w s) (cs : List Call) : accepted w s cs ≤ budget w s := by
  induction cs generalizing s
  case nil          => exact Nat.zero_le _
  case cons c cs hi =>
    rw [accepted]
    obtain ⟨hno, he⟩ | ⟨hok, _⟩ := step_cases w s c
    · rw [hno, he]
      simpa using hi hs h
    · have hle := budget_step hw hs h hok
      have hrest := hi (hs.step hw) (h.step (c := c))
      rw [if_pos hok]
      omega

end Bound

-- What holds of every state of a run: a stage has used its iterations only after an edge to itself.
structure Kept (w : Workflow) (s : State) : Prop where
  stage   : s.status = .running → ∃ id st, s.stage = some id ∧ w.stage id = some st ∧ s.visit ≤ st.iterations ∧
    (s.visit = st.iterations → ∃ o, st.next o = some id)
  edges   : ∀ c asked current e, Ready w s c asked current → current.next asked ≠ none → c.advance w s = .error e →
    s.visit = current.iterations ∨
      ∃ text, current.exit = some text ∧ c.check.stage text c.outputs = true ∧ current.next .pass = none
  refused : ∀ c e, c.advance w s = .error e → step w s c = s

theorem Sound.kept {w : Workflow} {s : State} (hs : Sound w s) : Kept w s where
  stage   := hs.stage
  edges   := by
    intro c asked current e hr ht h
    obtain ⟨id, st, hid, hst, hle, _⟩ := hs.stage hr.running
    obtain rfl : c.stage = id := Option.some.inj (hr.stage.symm.trans hid)
    obtain rfl : current = st := Option.some.inj (hr.current.symm.trans hst)
    obtain hlt | he := hle.lt_or_eq
    · exact .inr (Workflows.refused hr ht hlt h)
    · exact .inl he
  refused := fun _ _ => step_error

theorem runs_end {str : Yaml → String} {document : Yaml} {w : Workflow} (h : validate str document = .ok w) :
    ((∃ n, ∀ cs, accepted w (start w) cs ≤ n) ↔
      ∀ cs id, At w (Run.run (step w) (start w) cs) id → ¬Relation.TransGen (Passes w) id id) ∧
    ∀ cs, Kept w (Run.run (step w) (start w) cs) ∧ loops w (start w) cs ≤ w.maxIterations := by
  have hw := valid_of_validate h
  refine ⟨⟨?_, fun hsafe => ⟨_, accepted_le hw (.start hw) hsafe⟩⟩, fun cs => ⟨(Sound.run hw cs).kept, ?_⟩⟩
  · rintro ⟨n, hn⟩ cs id hat hp
    obtain ⟨cs', hle, _⟩ := hat.unbounded hw hp (n + 1)
    have hall := hn (cs ++ cs')
    rw [accepted_append] at hall
    omega
  · have hle := (Sound.run hw cs).iterations
    rw [loops_run] at hle
    simpa [start] using hle

section Cycle

-- A file of two stages a and b: a has these fields, and b goes back to a when it passes.
def fileOf (a : Mapping) : Yaml :=
  let next : Yaml := .map [(.text "pass", .text "a")]
  .map [(.text "workflow", .map [(.text "name", .text "w"), (.text "intent", .text "i"), (.text "head", .text "a"),
      (.text "exit", .text "all is done")]),
    (.text "stages", .map [(.text "a", .map ((.text "profile", .text "p") :: a)),
      (.text "b", .map [(.text "profile", .text "p"), (.text "next", next)])])]

-- Stages a and b pass to each other.
def circular : Mapping :=
  [(.text "next", .map [(.text "pass", .text "b")])]

-- Stage a retries itself.
def selfish : Mapping :=
  [(.text "next", .map [(.text "pass", .text "b"), (.text "retry", .text "a")])]

-- Stage a has an exit check and no pass edge.
def dead : Mapping :=
  [(.text "exit", .text "a is done"), (.text "next", .map [(.text "retry", .text "b")])]

def retryCall : Call :=
  { passCall "a" with outcome := "retry" }

theorem circular_unbounded {w : Workflow} (h : validate Yaml.asText (fileOf circular) = .ok w) (n : ℕ) :
    ∃ cs, n ≤ accepted w (start w) cs := by
  have hw := valid_of_validate h
  have hhead : w.head = "a" := by cases h; rfl
  have hexit : stagePass w.exit = none := by cases h; rfl
  obtain ⟨a, ha, hnext, hone⟩ : ∃ st, w.stage "a" = some st ∧ st.next .pass = some "b" ∧ st.iterations = 1 := by
    cases h
    exact ⟨_, rfl, rfl, rfl⟩
  obtain ⟨b, hb, hback⟩ : ∃ st, w.stage "b" = some st ∧ st.next .pass = some "a" := by
    cases h
    exact ⟨_, rfl, rfl⟩
  have hat : At w (start w) "a" := ⟨rfl, congrArg some hhead, a, ha, hone ▸ Nat.one_pos⟩
  have hab : Passes w "a" "b" := ⟨a, ha, hnext, by decide, by decide, by simp [hexit]⟩
  have hba : Passes w "b" "a" := ⟨b, hb, hback, by decide, by decide, by simp [hexit]⟩
  obtain ⟨cs, hle, _⟩ := hat.unbounded hw (.tail (.single hab) hba) n
  exact ⟨cs, hle⟩

theorem runs_refuted :
    (∃ w, validate Yaml.asText (fileOf circular) = .ok w ∧ ∀ n, ∃ cs, n ≤ accepted w (start w) cs) ∧
    (∃ w, validate Yaml.asText (fileOf selfish) = .ok w ∧ (step w (start w) retryCall).status = .running ∧
      ((passCall "a").advance w (step w (start w) retryCall)).isOk = false) ∧
    ∃ w, validate Yaml.asText (fileOf dead) = .ok w ∧ (retryCall.advance w (start w)).isOk = false :=
  ⟨⟨_, rfl, circular_unbounded rfl⟩, ⟨_, rfl, rfl, rfl⟩, _, rfl, rfl⟩

theorem runs_end_dead : ∃ w, validate Yaml.asText (fileOf dead) = .ok w ∧ loops w (start w) [retryCall] ≤ 3 :=
  ⟨_, rfl, ((@runs_end Yaml.asText (fileOf dead) _ rfl).right [retryCall]).right⟩

end Cycle

end Workflows
