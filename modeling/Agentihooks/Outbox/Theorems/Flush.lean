import Agentihooks.Outbox.Flush

-- Every line of a flush ends in one place, and what is kept keeps all behind it that must not overtake it.

namespace Outbox

variable {ω : Type} {settings : Settings ω} {p p' : Pass ω} {line : String} {entry : Record} {fate : Fate}

-- A failure that names targets names those of the record.
theorem busy_busy {message message' : String} {targets : Finset String}
    (h : entry.busy message = .busy message' targets) : entry.targets = .ok targets := by
  unfold Record.busy at h
  split at h
  case h_1 ht =>
    cases h
    exact ht
  case h_2 => cases h

theorem sendLedger_busy {outside : Outside ω} {args : Args} {sent : List LedgerOp} {w : ω} {message : String}
    {targets : Finset String} (h : (sendLedger outside args sent w).fst = .error (.failure (.busy message targets))) :
    targets = ∅ := by
  unfold sendLedger at h
  dsimp only at h
  split at h
  case h_2 =>
    split at h
    case isTrue => cases h
    case isFalse =>
      split at h
      case isTrue =>
        cases h
        rfl
      case isFalse => cases h
  all_goals cases h

theorem answered_busy {sent : Except SendError (List String)} {message : String} {targets : Finset String}
    (hs : ∀ message targets, sent = .error (.failure (.busy message targets)) → targets = ∅)
    (h : entry.answered sent = .error (.busy message targets)) : targets = ∅ ∨ entry.targets = .ok targets := by
  unfold Record.answered at h
  split at h
  case h_1 =>
    injection h with h
    exact .inr (busy_busy h)
  case h_2 =>
    injection h with h
    exact .inl (hs message targets (by rw [h]))
  case h_3 =>
    split at h
    case isTrue  => injection h with h; cases h
    case isFalse => cases h

theorem apply_busy {outside : Outside ω} {w : ω} {message : String} {targets : Finset String}
    (h : (outside.apply entry w).fst = .error (.busy message targets)) :
    targets = ∅ ∨ entry.targets = .ok targets := by
  unfold Outside.apply at h
  split at h
  case h_2 =>
    dsimp only at h
    cases hr : (outside.redis entry w).fst <;> rw [hr] at h <;> cases h
  case h_1 =>
    unfold applyLedger at h
    dsimp only at h
    split at h
    case h_1 =>
      split at h
      case isTrue =>
        injection h with h
        exact .inr (busy_busy h)
      case isFalse =>
        split at h
        case isTrue  => injection h with h; cases h
        case isFalse => exact answered_busy (fun _ _ => sendLedger_busy) h
    case h_2 => exact answered_busy (fun _ _ => sendLedger_busy) h

-- Later records of its lane, or those that share a target with it, stay behind the record.
def Blocks (p : Pass ω) (entry : Record) : Prop :=
  entry.lane ∈ p.down ∨ ∃ targets, entry.targets = .ok targets ∧ targets ⊆ p.held

-- What the step that settles a line does to the pass.
structure Settles (settings : Settings ω) (p p' : Pass ω) (line : String) (fate : Fate) : Prop where
  fates   : p'.fates = p.fates ++ [(line, fate)]
  kept    : p'.kept = p.kept ++ (fate.keptLine line).toList
  skipped : p'.skipped = p.skipped ++ (fate.skipped line).toList
  applied : p'.report.applied = p.report.applied ++ fate.appliedItem.toList
  already : p'.report.already = p.report.already ++ fate.alreadyItem.toList
  down    : p.down ⊆ p'.down
  held    : p.held ⊆ p'.held
  blocks  : ∀ why, fate = .kept why → ∀ entry ∈ settings.codec.parse line, Blocks p' entry
  stopped : fate = .kept .stopped → ∀ entry ∈ settings.codec.parse line, entry.lane ∈ p'.down

section Step

variable {why : Kept} {item reason : String} {targets : Finset String} {e : Failure}

theorem settles_keep {q : Pass ω} (hq : q.fates = p.fates ∧ q.kept = p.kept ∧ q.skipped = p.skipped ∧ q.report = p.report)
    (hd : p.down ⊆ q.down) (hh : p.held ⊆ q.held)
    (hb : ∀ entry ∈ settings.codec.parse line, Blocks q entry)
    (hs : why = .stopped → ∀ entry ∈ settings.codec.parse line, entry.lane ∈ q.down) :
    Settles settings p (q.keep line why) line (.kept why) := by
  obtain ⟨hf, hk, ha, hr⟩ := hq
  constructor <;> simp [Pass.keep, Fate.keptLine, Fate.skipped, Fate.appliedItem, Fate.alreadyItem, hf, hk, ha, hr]
  case down    => exact hd
  case held    => exact hh
  case blocks  => exact hb
  case stopped => exact hs

theorem settles_reject (hw : p'.fates = p.fates ∧ p'.kept = p.kept ∧ p'.skipped = p.skipped ∧ p'.report = p.report ∧
    p'.down = p.down ∧ p'.held = p.held) : Settles settings p (p'.reject line item reason) line (.aside reason) := by
  obtain ⟨hf, hk, ha, hr, hd, hh⟩ := hw
  constructor <;> simp [Pass.reject, Pass.setAside, Fate.keptLine, Fate.skipped, Fate.appliedItem,
    Fate.alreadyItem, hf, hk, ha, hr, hd, hh]

theorem settles_stop (hp : settings.codec.parse line = some entry) {q : Pass ω}
    (hq : q.fates = p.fates ∧ q.kept = p.kept ∧ q.skipped = p.skipped ∧ q.report = p.report ∧ q.down = p.down ∧ q.held = p.held) :
    Settles settings p ((q.stop entry.lane).keep line .stopped) line (.kept .stopped) := by
  obtain ⟨hf, hk, ha, hr, hd, hh⟩ := hq
  have hm : entry.lane ∈ (q.stop entry.lane).down := by simp [Pass.stop]
  refine settles_keep ⟨hf, hk, ha, hr⟩ ?_ hh.ge ?_ ?_
  case refine_1 =>
    rw [← hd]
    exact Finset.subset_insert ..
  case refine_2 =>
    intro found hf
    cases hp.symm.trans hf
    exact .inl hm
  case refine_3 =>
    intro _ found hf
    cases hp.symm.trans hf
    exact hm

-- A record that raises is settled, if what it is busy with are its targets.
theorem settles_caught (hp : settings.codec.parse line = some entry) {q : Pass ω}
    (hq : q.fates = p.fates ∧ q.kept = p.kept ∧ q.skipped = p.skipped ∧ q.report = p.report ∧ q.down = p.down ∧ q.held = p.held)
    (hb : ∀ message targets, e = .busy message targets → targets = ∅ ∨ entry.targets = .ok targets) :
    ∃ fate, Settles settings p (q.caught settings line entry e) line fate := by
  unfold Pass.caught
  split
  case h_1 message targets =>
    dsimp only
    split
    case isTrue  => exact ⟨_, settles_reject hq⟩
    case isFalse =>
      unfold Pass.hold
      split
      case isFalse => exact ⟨_, settles_stop hp hq⟩
      case isTrue hn =>
        obtain ⟨hf, hk, ha, hr, hd, hh⟩ := hq
        refine ⟨_, settles_keep ⟨hf, hk, ha, hr⟩ hd.ge ?_ ?_ (by simp)⟩
        case refine_1 =>
          rw [← hh]
          exact Finset.subset_union_left
        case refine_2 =>
          intro found hf
          cases hp.symm.trans hf
          cases hb message targets rfl with
          | inl he => simp [he] at hn
          | inr he => exact .inr ⟨targets, he, Finset.subset_union_right⟩
  case h_2 =>
    obtain ⟨hf, hk, ha, hr, hd, hh⟩ := hq
    refine ⟨.already entry.item, ?_⟩
    constructor <;> simp [Fate.keptLine, Fate.skipped, Fate.appliedItem, Fate.alreadyItem, hf, hk, ha, hr, hd, hh]
  case h_3 => exact ⟨_, settles_stop hp hq⟩
  case h_4 => exact ⟨_, settles_reject hq⟩
  case h_5 =>
    dsimp only
    split
    case isTrue  => exact ⟨_, settles_stop hp hq⟩
    case isFalse => exact ⟨_, settles_reject hq⟩

theorem keepBehind_true {held : Finset String} (h : p.keepBehind entry = .ok (true, held)) :
    p.held ⊆ held ∧ (entry.lane ∈ p.down ∨ ∃ targets, entry.targets = .ok targets ∧ targets ⊆ held) := by
  unfold Pass.keepBehind at h
  split at h
  case isTrue hd =>
    cases h
    exact ⟨subset_rfl, .inl hd⟩
  case isFalse =>
    cases ht : entry.targets <;> rw [ht] at h
    case error => cases h
    case ok targets =>
      change (Except.ok _ : Except Raised _) = _ at h
      split at h
      case isTrue =>
        cases h
        exact ⟨Finset.subset_union_left, .inr ⟨targets, rfl, Finset.subset_union_right⟩⟩
      case isFalse => cases h

theorem keepBehind_of_down (h : entry.lane ∈ p.down) : p.keepBehind entry = .ok (true, p.held) := by
  simp [Pass.keepBehind, h]

theorem keepBehind_of_held (ht : entry.targets = .ok targets) (h : (p.held ∩ targets).Nonempty) :
    ∃ held, p.keepBehind entry = .ok (true, held) := by
  by_cases hd : entry.lane ∈ p.down
  case pos => exact ⟨_, keepBehind_of_down hd⟩
  case neg => exact ⟨p.held ∪ targets, by simp [Pass.keepBehind, hd, ht, h, bind, Except.bind, pure, Except.pure]⟩

theorem step_of_behind {held : Finset String} (hp : settings.codec.parse line = some entry)
    (h : p.keepBehind entry = .ok (true, held)) :
    p.step settings line = { p with held := held }.keep line .behind := by
  simp [Pass.step, hp, h]

theorem settles_step : ∃ fate, Settles settings p (p.step settings line) line fate := by
  unfold Pass.step
  split
  case h_1 hp =>
    refine ⟨.aside "corrupt", ?_⟩
    constructor <;> simp [Pass.setAside, Fate.keptLine, Fate.skipped, Fate.appliedItem, Fate.alreadyItem]
  case h_2 entry hp =>
    cases hk : p.keepBehind entry
    case error e =>
      dsimp only
      exact settles_caught hp (by simp) (by simp)
    case ok found =>
      obtain ⟨behind, held⟩ := found
      cases behind
      case true =>
        obtain ⟨hs, hb⟩ := keepBehind_true hk
        refine ⟨.kept .behind, settles_keep (by simp) subset_rfl hs ?_ (by simp)⟩
        intro found hf
        cases hp.symm.trans hf
        exact hb
      case false =>
        dsimp only
        split
        case h_1 e he =>
          refine settles_caught hp (by simp) fun message targets hb => ?_
          rw [hb] at he
          exact apply_busy he
        case h_2 =>
          refine ⟨.applied entry.item, ?_⟩
          constructor <;> simp [Fate.keptLine, Fate.skipped, Fate.appliedItem, Fate.alreadyItem]

end Step

-- Two records that write one resource.
def Share (entry entry' : Record) : Prop :=
  ∃ targets targets', entry.targets = .ok targets ∧ entry'.targets = .ok targets' ∧ (targets ∩ targets').Nonempty

-- What a settled line asks of a later one: to stay behind it, if it stopped their lane, or if it is kept and
-- they write one resource.
def Holds (settings : Settings ω) (x y : String × Fate) : Prop :=
  ∀ entry ∈ settings.codec.parse x.1, ∀ entry' ∈ settings.codec.parse y.1,
    (x.2 = .kept .stopped ∧ entry.lane = entry'.lane ∨ (∃ why, x.2 = .kept why) ∧ Share entry entry') →
    y.2 = .kept .behind

-- What holds of a pass over lines.
structure Settled (settings : Settings ω) (home : Home) (lines : List String) (p : Pass ω) : Prop where
  lines   : p.fates.map Prod.fst = lines
  kept    : p.kept = p.fates.filterMap fun (line, fate) => fate.keptLine line
  skipped : p.skipped = home.skipped ++ p.fates.filterMap fun (line, fate) => fate.skipped line
  applied : p.report.applied = p.fates.filterMap fun (_, fate) => fate.appliedItem
  already : p.report.already = p.fates.filterMap fun (_, fate) => fate.alreadyItem
  blocks  : ∀ x ∈ p.fates, ∀ why, x.2 = .kept why → ∀ entry ∈ settings.codec.parse x.1, Blocks p entry
  stopped : ∀ x ∈ p.fates, x.2 = .kept .stopped → ∀ entry ∈ settings.codec.parse x.1, entry.lane ∈ p.down
  order   : p.fates.Pairwise (Holds settings)

theorem filterMap_concat {α β : Type} {f : α → Option β} {l : List α} {a : α} :
    (l ++ [a]).filterMap f = l.filterMap f ++ (f a).toList := by
  rw [List.filterMap_append]
  cases hf : f a <;> simp [hf]

theorem lane_of_share {entry entry' : Record} (h : Share entry entry') : entry.lane = entry'.lane := by
  obtain ⟨targets, targets', ht, ht', hn⟩ := h
  cases hl : entry.lane
  case redis =>
    simp only [Record.targets, hl] at ht
    cases ht
    simp at hn
  case ledger =>
    cases hl' : entry'.lane
    case ledger => rfl
    case redis  =>
      simp only [Record.targets, hl'] at ht'
      cases ht'
      simp at hn

namespace Settled

variable {home : Home} {lines : List String} {connected : Bool} {world : ω}

theorem start : Settled settings home [] (.start home connected world) := by
  constructor <;> simp [Pass.start]

-- A line that an earlier one asks to stay behind it does.
theorem holds (h : Settled settings home lines p) (hs : Settles settings p (p.step settings line) line fate) :
    ∀ x ∈ p.fates, Holds settings x (line, fate) := by
  intro x hx entry he entry' he' hb
  have hk : ∃ held, p.keepBehind entry' = .ok (true, held) := by
    cases hb with
    | inl hb =>
      obtain ⟨hk, hl⟩ := hb
      have hd : entry'.lane ∈ p.down := hl ▸ h.stopped x hx hk entry he
      exact ⟨p.held, keepBehind_of_down hd⟩
    | inr hb =>
      obtain ⟨⟨why, hk⟩, hs⟩ := hb
      cases h.blocks x hx why hk entry he with
      | inl hd => exact ⟨p.held, keepBehind_of_down (lane_of_share hs ▸ hd)⟩
      | inr ht =>
        obtain ⟨found, hf, hsub⟩ := ht
        obtain ⟨targets, targets', ht, ht', hn⟩ := hs
        cases hf.symm.trans ht
        exact keepBehind_of_held ht' (hn.mono (Finset.inter_subset_inter_right hsub))
  obtain ⟨held, hk⟩ := hk
  have hf := hs.fates
  rw [step_of_behind he' hk] at hf
  have hl : [(line, Fate.kept .behind)] = [(line, fate)] := List.append_cancel_left hf
  simp at hl
  exact hl.symm

theorem step (h : Settled settings home lines p) : Settled settings home (lines ++ [line]) (p.step settings line) := by
  have hs : ∃ fate, Settles settings p (p.step settings line) line fate := settles_step
  obtain ⟨fate, hs⟩ := hs
  have hfate {P : String × Fate → Prop} (ho : ∀ x ∈ p.fates, P x) (hn : P (line, fate)) :
      ∀ x ∈ (p.step settings line).fates, P x := by
    rw [hs.fates]
    simpa [or_imp, forall_and, hn] using ho
  constructor
  case lines   => simp [hs.fates, h.lines]
  case kept    => rw [hs.fates, filterMap_concat, hs.kept, h.kept]
  case skipped => rw [hs.fates, filterMap_concat, hs.skipped, h.skipped, List.append_assoc]
  case applied => rw [hs.fates, filterMap_concat, hs.applied, h.applied]
  case already => rw [hs.fates, filterMap_concat, hs.already, h.already]
  case blocks  =>
    refine hfate (fun x hx why hk entry he => ?_) hs.blocks
    cases h.blocks x hx why hk entry he with
    | inl hd => exact .inl (hs.down hd)
    | inr ht =>
      obtain ⟨targets, ht, hsub⟩ := ht
      exact .inr ⟨targets, ht, hsub.trans hs.held⟩
  case stopped => exact hfate (fun x hx hk entry he => hs.down (h.stopped x hx hk entry he)) hs.stopped
  case order   =>
    rw [hs.fates, List.pairwise_append]
    refine ⟨h.order, List.pairwise_singleton .., fun x hx y hy => ?_⟩
    rw [List.mem_singleton] at hy
    subst hy
    exact h.holds hs x hx

theorem through : Settled settings home lines (.through settings home connected world lines) := by
  induction lines using List.reverseRecOn with
  | nil => exact start
  | append_singleton lines line hi =>
    rw [Pass.through, Run.run_concat]
    exact hi.step

end Settled

-- Lines whose records write one resource, or replay in one lane.
def Shares (settings : Settings ω) (x y : String × Fate) : Prop :=
  ∃ entry ∈ settings.codec.parse x.1, ∃ entry' ∈ settings.codec.parse y.1, Share entry entry'

def SameLane (settings : Settings ω) (x y : String × Fate) : Prop :=
  ∃ entry ∈ settings.codec.parse x.1, ∃ entry' ∈ settings.codec.parse y.1, entry.lane = entry'.lane

-- Along a chain of records each of which writes a resource of the one before, all stay behind if the first is kept.
theorem behind_of_chain {fates rest : List (String × Fate)} {x : String × Fate} (ho : fates.Pairwise (Holds settings))
    (hs : (x :: rest).Sublist fates) (hc : (x :: rest).IsChain (Shares settings)) (hk : ∃ why, x.2 = .kept why) :
    ∀ y ∈ rest, y.2 = .kept .behind := by
  induction rest generalizing x
  case nil => simp
  case cons y rest hi =>
    rw [List.isChain_cons_cons] at hc
    obtain ⟨⟨entry, he, entry', he', hshare⟩, hc⟩ := hc
    have hxy := List.rel_of_pairwise_cons (ho.sublist hs) List.mem_cons_self
    have hy : y.2 = .kept .behind := hxy entry he entry' he' (.inr ⟨hk, hshare⟩)
    rw [List.forall_mem_cons]
    exact ⟨hy, hi ((List.sublist_cons_self x _).trans hs) hc ⟨_, hy⟩⟩

-- One flush of any lines. Each line has one fate, and the queue, the skipped file and the report hold the lines of
-- theirs, in order. What stopped its lane, or is kept and writes what a later record writes, has the later one
-- stay behind.
theorem flush_settles (settings : Settings ω) (lines : List String) (skipped : List (String × String))
    (attempts : Dict String ℕ) (connected : Bool) (world : ω) :
    let home : Home := ⟨some lines, skipped, attempts⟩
    let fates := (Pass.through settings home connected world lines).fates
    let (report, after, _) := flush settings home connected true world
    fates.map Prod.fst = lines ∧
    after.queue.getD [] = (fates.filterMap fun (line, fate) => fate.keptLine line) ∧ after.queue ≠ some [] ∧
    after.skipped = skipped ++ (fates.filterMap fun (line, fate) => fate.skipped line) ∧
    report.applied = (fates.filterMap fun (_, fate) => fate.appliedItem) ∧
    report.already = (fates.filterMap fun (_, fate) => fate.alreadyItem) ∧
    fates.Pairwise (fun x y => x.2 = .kept .stopped → SameLane settings x y → y.2 = .kept .behind) ∧
    ∀ x rest, (x :: rest).Sublist fates → (x :: rest).IsChain (Shares settings) → (∃ why, x.2 = .kept why) →
      ∀ y ∈ rest, y.2 = .kept .behind := by
  intro home fates
  have h : Settled settings home lines (.through settings home connected world lines) := .through
  refine ⟨h.lines, ?_, ?_, h.skipped, ?_, ?_, ?_, ?_⟩
  case refine_1 =>
    refine Eq.trans ?_ h.kept
    dsimp only [Pass.home]
    split
    case isTrue he => exact he.symm
    case isFalse   => rfl
  case refine_2 =>
    dsimp only [Pass.home]
    split
    case isTrue     => simp
    case isFalse he => simpa using he
  case refine_3 =>
    refine Eq.trans ?_ h.applied
    unfold Pass.result
    split <;> rfl
  case refine_4 =>
    refine Eq.trans ?_ h.already
    unfold Pass.result
    split <;> rfl
  case refine_5 =>
    refine h.order.imp fun {x y} ho hk hs => ?_
    obtain ⟨entry, he, entry', he', hl⟩ := hs
    exact ho entry he entry' he' (.inl ⟨hk, hl⟩)
  case refine_6 =>
    intro x rest hs hc hk
    exact behind_of_chain h.order hs hc hk

end Outbox
