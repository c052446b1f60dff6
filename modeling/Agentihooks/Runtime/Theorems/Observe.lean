import Mathlib.Data.List.Induction
import Mathlib.Data.List.Pairwise
import Mathlib.Data.List.Perm.Basic
import Agentihooks.Runtime.Observe

-- An execution is lost only after proof at every classification for long enough, and stays lost; a ruling and the
-- remembered sources last as long as nothing takes their place.

namespace Observation

variable {prior kept : Record} {e : Event} {es : List Event} {generation : ℤ} {signals : List Signal}
variable {thresholds : Thresholds} {now : ℚ} {seen : Classification} {sources : Sources}

section Step

-- A classification that is made and kept, and what it finds.
structure Finding where
  generation : ℤ
  now        : ℚ
  fresh      : Bool
  sources    : Sources

def finding (prior : Record) : Event → Option Finding
  | .rule _ _ _ _                              => none
  | .observe generation signals thresholds now =>
    if outdated prior generation now ∨ (keptOf prior generation).any (·.state = .lost) then none
    else
      let sources := (observed generation signals (keptOf prior generation) thresholds now).sources
      some ⟨generation, now, fresh sources now thresholds.freshS, sources⟩

def findings : Record → List Event → List Finding
  | _, []          => []
  | prior, e :: es => (finding prior e).toList ++ findings (step prior e) es

theorem findings_concat : findings prior (es ++ [e]) =
    findings prior es ++ (finding (Run.run step prior es) e).toList := by
  induction es generalizing prior
  case nil     => simp [findings]
  case cons hi => simp [findings, hi]

-- What an observation does to the record.
theorem step_observe : step prior (.observe generation signals thresholds now) = prior ∧
      finding prior (.observe generation signals thresholds now) = none ∨
    finding prior (.observe generation signals thresholds now) ≠ none ∧
      step prior (.observe generation signals thresholds now) = some (applyRuling (keptOf prior generation)
        (observed generation signals (keptOf prior generation) thresholds now)) := by
  rw [step, record, finding]
  by_cases ho : outdated prior generation now
  case pos => exact .inl ⟨if_pos ho, if_pos (.inl ho)⟩
  case neg =>
    rw [if_neg ho, classify]
    cases hk : (keptOf prior generation).filter (·.state = .lost) with
    | some lost =>
      obtain ⟨hkept, hl⟩ := Option.filter_eq_some_iff.mp hk
      refine .inl ⟨?_, if_pos (.inr ?_)⟩
      · exact (Option.filter_eq_some_iff.mp hkept).left.symm
      · rw [hkept]
        exact hl
    | none      =>
      refine .inr ⟨?_, rfl⟩
      rw [if_neg]
      · exact nofun
      · rintro (h | h)
        · exact ho h
        · cases hkept : keptOf prior generation with
          | none      => rw [hkept] at h; cases h
          | some kept =>
            rw [hkept] at h hk
            exact Option.filter_eq_none_iff.mp hk kept rfl h

-- What a classification finds is of its own generation, and its sources are the record's.
theorem finding_observe {found : Finding}
    (h : finding prior (.observe generation signals thresholds now) = some found) :
    found = ⟨generation, now,
      fresh (observed generation signals (keptOf prior generation) thresholds now).sources now thresholds.freshS,
      (observed generation signals (keptOf prior generation) thresholds now).sources⟩ := by
  rw [finding] at h
  split at h
  case isTrue  => cases h
  case isFalse => exact (Option.some.inj h).symm

-- A ruling changes neither the generation, the sources nor the proof.
theorem applyRuling_eq : ∃ state suspectSince needsOperator ruled, applyRuling kept seen = { seen with
    state := state, suspectSince := suspectSince, needsOperator := needsOperator, ruled := ruled } := by
  rw [applyRuling]
  cases kept.bind Classification.ruled with
  | none       => exact ⟨_, _, _, _, rfl⟩
  | some ruled =>
    dsimp only
    split
    · exact ⟨_, _, _, _, rfl⟩
    · split
      · exact ⟨_, _, _, _, rfl⟩
      · exact ⟨_, _, _, _, rfl⟩

theorem applyRuling_lost (h : (applyRuling kept seen).state = .lost) : applyRuling kept seen = seen := by
  rw [applyRuling] at h ⊢
  cases hr : kept.bind Classification.ruled with
  | none       => rfl
  | some ruled =>
    rw [hr] at h
    dsimp only at h ⊢
    split at h
    case isTrue hn => rw [if_pos hn]
    case isFalse hn =>
      split at h
      case isTrue ha => rw [if_neg hn, if_pos ha]
      case isFalse   => cases h

-- An execution is judged lost where a source shows its end and no heartbeat is fresh.
theorem judge_lost {isFresh : Bool} {current : Sources} :
    (judge isFresh sources current).1 = .lost ↔ isFresh = false ∧ gone sources = true := by
  rw [judge]
  cases isFresh with
  | true  =>
    simp only [if_true, aliveState]
    split_ifs <;> simp
  | false =>
    cases hg : gone sources with
    | true  => simp
    | false =>
      simp only [Bool.false_eq_true, if_false]
      split_ifs <;> simp

-- What a finding is that counts towards a loss.
def Finding.Proves (found : Finding) (generation : ℤ) : Prop :=
  found.generation = generation ∧ found.fresh = false ∧ gone found.sources = true

theorem proofSince_observed (h : (observed generation signals kept thresholds now).proofSince ≠ 0) :
    fresh (observed generation signals kept thresholds now).sources now thresholds.freshS = false ∧
      gone (observed generation signals kept thresholds now).sources = true ∧
        ((∃ k, kept = some k ∧ k.proofSince ≠ 0 ∧
            (observed generation signals kept thresholds now).proofSince = k.proofSince) ∨
          (observed generation signals kept thresholds now).proofSince = now) := by
  simp only [observed] at h ⊢
  split at h
  case isFalse        => exact absurd rfl h
  case isTrue hjudged =>
    obtain ⟨hf, hg⟩ := judge_lost.mp hjudged
    refine ⟨hf, hg, ?_⟩
    rw [if_pos hjudged]
    cases kept with
    | none      => exact .inr rfl
    | some kept =>
      by_cases hk : kept.proofSince = 0
      case pos => exact .inr (by simp [hk])
      case neg => exact .inl ⟨kept, rfl, hk, by simp [hk]⟩

theorem state_observed (h : (observed generation signals kept thresholds now).state = .lost) :
    thresholds.mode = .standard ∧ ∃ k, kept = some k ∧ k.proofSince ≠ 0 ∧
      thresholds.lostAfterS ≤ now - k.proofSince ∧
        (observed generation signals kept thresholds now).proofSince = k.proofSince := by
  simp only [observed, settled] at h ⊢
  split at h
  case isTrue        => cases h
  case isFalse hheld =>
    rw [if_pos h]
    rw [h] at hheld
    cases kept with
    | none      => simp at hheld
    | some kept =>
      obtain ⟨hmode, hk, hlong⟩ : thresholds.mode ≠ .conservative ∧ kept.proofSince ≠ 0 ∧
          thresholds.lostAfterS ≤ now - kept.proofSince := by simpa using hheld
      refine ⟨?_, kept, rfl, hk, hlong, by simp [hk]⟩
      cases hm : thresholds.mode with
      | standard     => rfl
      | conservative => exact absurd hm hmode

end Step

section Proof

-- The proof that a record goes back to was found at each classification since.
def ProvenBy (found : List Finding) (r : Classification) : Prop :=
  ∃ earlier first recent, found = earlier ++ first :: recent ∧ first.now = r.proofSince ∧
    ∀ f ∈ first :: recent, f.Proves r.generation

theorem ProvenBy.concat {found : List Finding} {r r' : Classification} {last : Finding} (h : ProvenBy found r)
    (hp : r'.proofSince = r.proofSince) (hg : r'.generation = r.generation) (hl : last.Proves r'.generation) :
    ProvenBy (found ++ [last]) r' := by
  obtain ⟨earlier, first, recent, rfl, hnow, hf⟩ := h
  refine ⟨earlier, first, recent ++ [last], by simp, hnow.trans hp.symm, fun f hm => ?_⟩
  rw [← List.cons_append, List.mem_append, List.mem_singleton] at hm
  obtain hm | rfl := hm
  · exact hg ▸ hf f hm
  · exact hl

theorem keptOf_eq_some {k : Classification} (h : keptOf prior generation = some k) :
    prior = some k ∧ k.generation = generation := by
  simpa [keptOf] using h

theorem rule_eq {ruling : Ruling} {reason whom : String} {r : Classification}
    (h : rule prior ruling reason whom now = some r) : ∃ k, prior = some k ∧
      r.generation = k.generation ∧ r.proofSince = k.proofSince ∧ r.sources = k.sources := by
  cases prior with
  | none   => cases h
  | some k =>
    refine ⟨k, rfl, ?_⟩
    simp only [rule] at h
    split at h
    case isTrue =>
      rw [Option.some.inj h]
      exact ⟨rfl, rfl, rfl⟩
    case isFalse =>
      rw [← Option.some.inj h]
      exact ⟨rfl, rfl, rfl⟩

theorem proven_run {r : Classification} (h : Run.run step none es = some r) (hp : r.proofSince ≠ 0) :
    ProvenBy (findings none es) r := by
  induction es using List.reverseRecOn generalizing r with
  | nil => cases h
  | append_singleton es e hi =>
    rw [Run.run_concat] at h
    rw [findings_concat]
    cases e with
    | rule ruling reason whom now =>
      obtain ⟨k, hk, hg, hproof, _⟩ := rule_eq h
      rw [finding, Option.toList_none, List.append_nil]
      have hproven := hi hk (hproof ▸ hp)
      rwa [ProvenBy, hproof, hg]
    | observe generation signals thresholds now =>
      obtain ⟨hs, hn⟩ | ⟨hn, hs⟩ :=
        @step_observe (Run.run step none es) generation signals thresholds now
      case inl =>
        rw [hn, Option.toList_none, List.append_nil]
        exact hi (hs.symm.trans h) hp
      case inr =>
        obtain ⟨found, hf⟩ := Option.ne_none_iff_exists'.mp hn
        rw [hf, Option.toList_some, finding_observe hf]
        rw [hs, Option.some.injEq] at h
        obtain ⟨state, suspectSince, needsOperator, ruled, he⟩ :=
          @applyRuling_eq (keptOf (Run.run step none es) generation)
            (observed generation signals (keptOf (Run.run step none es) generation) thresholds now)
        rw [he] at h
        subst h
        obtain ⟨hfresh, hgone, ⟨k, hk, hpk, hsame⟩ | hnow⟩ := proofSince_observed hp
        case inl =>
          obtain ⟨hrun, hgen⟩ := keptOf_eq_some hk
          exact (hi hrun hpk).concat hsame hgen.symm ⟨rfl, hfresh, hgone⟩
        case inr =>
          refine ⟨findings none es, _, [], rfl, hnow.symm, fun f hm => ?_⟩
          rw [List.mem_singleton.mp hm]
          exact ⟨rfl, hfresh, hgone⟩

-- The step at which an execution becomes lost without a ruling.
theorem lost_proven {r : Classification}
    (h : Run.run step none (es ++ [.observe generation signals thresholds now]) = some r) (hl : r.state = .lost)
    (hn : Run.run step none es ≠ some r) : thresholds.mode = .standard ∧
      ∃ earlier first recent, findings none (es ++ [.observe generation signals thresholds now]) =
        earlier ++ first :: recent ∧ thresholds.lostAfterS ≤ now - first.now ∧
          ∀ f ∈ first :: recent, f.Proves r.generation := by
  have hstep := h
  rw [Run.run_concat] at hstep
  obtain ⟨hs, _⟩ | ⟨_, hs⟩ := @step_observe (Run.run step none es) generation signals thresholds now
  case inl => exact absurd (hs.symm.trans hstep) hn
  case inr =>
    rw [hs, Option.some.injEq] at hstep
    subst hstep
    have he := applyRuling_lost hl
    rw [he] at h hl ⊢
    obtain ⟨hmode, k, _, hk, hlong, hsame⟩ := state_observed hl
    obtain ⟨earlier, first, recent, hf, hnow, hproves⟩ := proven_run h (hsame ▸ hk)
    refine ⟨hmode, earlier, first, recent, hf, ?_, hproves⟩
    rwa [hnow, hsame]

end Proof

section Sources

-- A source keeps what is newer than a signal.
def Newer (sources : Sources) (signal : Signal) : Prop :=
  ∃ held, sources signal.source = some held ∧ signal.observedAt < held.observedAt

theorem remember_of_newer {signal : Signal} (h : Newer sources signal) : remember sources signal = sources := by
  obtain ⟨held, hs, hlt⟩ := h
  simp only [remember, hs, if_neg (not_le.mpr hlt)]

theorem remember_of_not_newer {signal : Signal} (h : ¬ Newer sources signal) :
    remember sources signal = Function.update sources signal.source (some signal.seen) := by
  rw [remember]
  cases hs : sources signal.source with
  | none      => rfl
  | some held => exact if_pos (not_lt.mp fun hlt => h ⟨held, hs, hlt⟩)

theorem latest_source {source : Source} {found : Seen} (h : latest signals sources source = some found) :
    sources source = some found ∨ ∃ signal ∈ signals, signal.source = source ∧ signal.seen = found := by
  induction signals generalizing sources with
  | nil => exact .inl h
  | cons signal signals hi =>
    obtain h | ⟨later, hm, hs⟩ := hi h
    case inr => exact .inr ⟨later, List.mem_cons_of_mem _ hm, hs⟩
    case inl =>
      by_cases hn : Newer sources signal
      case pos => exact .inl (remember_of_newer hn ▸ h)
      case neg =>
        rw [remember_of_not_newer hn] at h
        by_cases hs : source = signal.source
        case pos =>
          subst hs
          rw [Function.update_self, Option.some.injEq] at h
          exact .inr ⟨signal, List.mem_cons_self, rfl, h⟩
        case neg =>
          rw [Function.update_of_ne hs] at h
          exact .inl h

-- The signals that the observations of a run bring.
def delivered (es : List Event) : List Signal :=
  es.flatMap fun
    | .observe _ signals _ _ => signals
    | .rule _ _ _ _          => []

theorem sources_run {r : Classification} {source : Source} {found : Seen} (h : Run.run step none es = some r)
    (hs : r.sources source = some found) : ∃ signal ∈ delivered es, signal.source = source ∧ signal.seen = found := by
  induction es using List.reverseRecOn generalizing r with
  | nil => cases h
  | append_singleton es e hi =>
    have later {r : Classification} (h : Run.run step none es = some r) (hs : r.sources source = some found) :
        ∃ signal ∈ delivered (es ++ [e]), signal.source = source ∧ signal.seen = found := by
      obtain ⟨signal, hm, hs⟩ := hi h hs
      exact ⟨signal, by rw [delivered, List.flatMap_append]; exact List.mem_append_left _ hm, hs⟩
    rw [Run.run_concat] at h
    cases e with
    | rule ruling reason whom now =>
      obtain ⟨k, hk, _, _, hsame⟩ := rule_eq h
      exact later hk (hsame ▸ hs)
    | observe generation signals thresholds now =>
      obtain ⟨he, _⟩ | ⟨_, he⟩ := @step_observe (Run.run step none es) generation signals thresholds now
      case inl => exact later (he.symm.trans h) hs
      case inr =>
        obtain ⟨_, _, _, _, hr⟩ := @applyRuling_eq (keptOf (Run.run step none es) generation)
          (observed generation signals (keptOf (Run.run step none es) generation) thresholds now)
        rw [he, hr, Option.some.injEq] at h
        subst h
        obtain hknown | ⟨signal, hm, hsig⟩ := latest_source hs
        case inr =>
          exact ⟨signal, by rw [delivered, List.flatMap_append]; exact List.mem_append_right _ (by simpa using hm), hsig⟩
        case inl =>
          cases hk : keptOf (Run.run step none es) generation with
          | none   => rw [hk] at hknown; cases hknown
          | some k =>
            rw [hk] at hknown
            exact later (keptOf_eq_some hk).left hknown

theorem newer_remember_of_ne {a b : Signal} (h : a.source ≠ b.source) : Newer (remember sources a) b ↔ Newer sources b := by
  by_cases hn : Newer sources a
  case pos => rw [remember_of_newer hn]
  case neg => rw [remember_of_not_newer hn, Newer, Newer, Function.update_of_ne h.symm]

theorem newer_remember {a b : Signal} (h : a.source = b.source) :
    Newer (remember sources a) b ↔ Newer sources b ∨ b.observedAt < a.observedAt := by
  by_cases hn : Newer sources a
  case pos =>
    rw [remember_of_newer hn]
    refine ⟨.inl, fun hb => hb.elim id fun hlt => ?_⟩
    obtain ⟨held, hs, ha⟩ := hn
    exact ⟨held, h ▸ hs, hlt.trans ha⟩
  case neg =>
    rw [remember_of_not_newer hn, Newer, ← h, Function.update_self]
    constructor
    case mp =>
      rintro ⟨_, hs, hlt⟩
      rw [← Option.some.inj hs] at hlt
      exact .inr hlt
    case mpr =>
      rintro (⟨held, hs, hlt⟩ | hlt)
      · refine ⟨a.seen, rfl, hlt.trans_le (not_lt.mp fun hh => hn ⟨held, h ▸ hs, hh⟩)⟩
      · exact ⟨a.seen, rfl, hlt⟩

theorem remember_older {a b : Signal} (hs : a.source = b.source) (hlt : a.observedAt < b.observedAt) :
    remember (remember sources a) b = remember sources b ∧ remember (remember sources b) a = remember sources b := by
  refine ⟨?_, remember_of_newer ((newer_remember hs.symm).mpr (.inr hlt))⟩
  by_cases hb : Newer sources b
  case pos =>
    have ha : Newer sources a := by
      obtain ⟨held, hh, ht⟩ := hb
      exact ⟨held, hs ▸ hh, hlt.trans ht⟩
    rw [remember_of_newer ha]
  case neg =>
    have hn : ¬ Newer (remember sources a) b := fun h => ((newer_remember hs).mp h).elim hb hlt.asymm
    rw [remember_of_not_newer hn, remember_of_not_newer hb]
    by_cases ha : Newer sources a
    case pos => rw [remember_of_newer ha]
    case neg => rw [remember_of_not_newer ha, hs, Function.update_idem]

-- Of two signals with distinct times the newer one stays, whichever comes first.
theorem remember_comm {a b : Signal} (h : a.source = b.source → a.observedAt ≠ b.observedAt) :
    remember (remember sources a) b = remember (remember sources b) a := by
  by_cases hs : a.source = b.source
  case neg =>
    by_cases ha : Newer sources a <;> by_cases hb : Newer sources b
    · rw [remember_of_newer ha, remember_of_newer hb, remember_of_newer ha]
    · rw [remember_of_newer ha, remember_of_newer ((newer_remember_of_ne (Ne.symm hs)).mpr ha)]
    · rw [remember_of_newer hb, remember_of_newer ((newer_remember_of_ne hs).mpr hb)]
    · rw [remember_of_not_newer (mt (newer_remember_of_ne hs).mp hb), remember_of_not_newer ha,
        remember_of_not_newer (mt (newer_remember_of_ne (Ne.symm hs)).mp ha), remember_of_not_newer hb,
        Function.update_comm hs]
  case pos =>
    obtain hlt | hlt := lt_or_gt_of_ne (h hs)
    · rw [(remember_older hs hlt).left, (remember_older hs hlt).right]
    · rw [(remember_older hs.symm hlt).left, (remember_older hs.symm hlt).right]

-- The signals of a source have distinct times.
def Distinct (signals : List Signal) : Prop :=
  signals.Pairwise fun a b => a.source = b.source → a.observedAt ≠ b.observedAt

instance : Decidable (Distinct signals) :=
  inferInstanceAs (Decidable (List.Pairwise _ _))

theorem latest_perm {signals' : List Signal} (hd : Distinct signals) (hp : signals.Perm signals') :
    latest signals sources = latest signals' sources := by
  refine hp.foldl_eq' (fun a ha b hb known => ?_) sources
  by_cases hab : a = b
  case pos => rw [hab]
  case neg =>
    have hsymm : Std.Symm fun a b : Signal => a.source = b.source → a.observedAt ≠ b.observedAt :=
      ⟨fun a b h hs => (h hs.symm).symm⟩
    exact remember_comm (hd.forall ha hb hab)

-- Each observation is of the generation and is taken into the record.
def Taken (generation : ℤ) (prior : Record) : Event → Prop
  | .rule _ _ _ _            => True
  | .observe generation' _ _ now =>
    generation' = generation ∧ outdated prior generation' now = false ∧ ∀ r, prior = some r → r.state ≠ .lost

def remembered (prior : Record) : Sources :=
  prior.elim (fun _ => none) Classification.sources

theorem remembered_run (h : Run.Along step (Taken generation) none es) :
    remembered (Run.run step none es) = latest (delivered es) (fun _ => none) ∧
      ∀ r, Run.run step none es = some r → r.generation = generation := by
  induction es using List.reverseRecOn with
  | nil => exact ⟨rfl, fun r h => by cases h⟩
  | append_singleton es e hi =>
    obtain ⟨hes, he, _⟩ := Run.Along.append.mp h
    obtain ⟨hsources, hgen⟩ := hi hes
    rw [Run.run_concat]
    generalize Run.run step none es = prior at *
    cases e with
    | rule ruling reason whom now =>
      rw [delivered, List.flatMap_append, ← delivered, List.flatMap_singleton, List.append_nil, ← hsources]
      cases hr : step prior (.rule ruling reason whom now) with
      | none   =>
        cases prior with
        | none   => exact ⟨rfl, fun r h => by cases h⟩
        | some k =>
          simp only [step, rule] at hr
          split at hr <;> cases hr
      | some r =>
        obtain ⟨k, rfl, hg, _, hs⟩ := rule_eq hr
        refine ⟨hs, fun r' h => ?_⟩
        rw [← Option.some.inj h, hg, hgen k rfl]
    | observe generation' signals thresholds now =>
      obtain ⟨rfl, hout, hlost⟩ := he
      have hkept : keptOf prior generation' = prior := by
        cases prior with
        | none   => rfl
        | some k => exact Option.filter_some_pos (by simpa using hgen k rfl)
      have hlive : prior.any (·.state = .lost) = false := by
        cases prior with
        | none   => rfl
        | some k => simpa using hlost k rfl
      have hlatest : latest (delivered (es ++ [.observe generation' signals thresholds now])) (fun _ => none) =
          latest signals (latest (delivered es) fun _ => none) := by
        simp [latest, delivered]
      obtain ⟨_, hn⟩ | ⟨_, hs⟩ := @step_observe prior generation' signals thresholds now
      case inl => simp [finding, hkept, hout, hlive] at hn
      case inr =>
        obtain ⟨_, _, _, _, hr⟩ := @applyRuling_eq (keptOf prior generation')
          (observed generation' signals (keptOf prior generation') thresholds now)
        rw [hs, hr, hlatest, ← hsources, hkept]
        exact ⟨rfl, fun r h => by rw [← Option.some.inj h]; rfl⟩

end Sources

section Rulings

-- A lost execution was ruled to be or a source shows its end, and needs no operator; one that an operator ruled to be
-- working is.
structure Classification.Sound (r : Classification) : Prop where
  shown   : r.state = .lost → (∃ ruled, r.ruled = some ruled ∧ ruled.ruling = .lost) ∨ gone r.sources = true
  lost    : r.state = .lost → r.needsOperator = false
  working : ∀ ruled, r.ruled = some ruled → ruled.ruling = .working → r.state = .working ∧ r.needsOperator = false

theorem sound_observed : (observed generation signals kept thresholds now).Sound where
  shown h      := by
    obtain ⟨_, k, _, hk, _, hsame⟩ := state_observed h
    exact .inr (proofSince_observed (hsame ▸ hk)).right.left
  lost h       := by
    have : (observed generation signals kept thresholds now).needsOperator =
        decide (thresholds.mode = .conservative ∧ (observed generation signals kept thresholds now).state = .suspect) := rfl
    rw [this, h]
    simp
  working _ h := by cases h

theorem sound_applyRuling (h : seen.Sound) : (applyRuling kept seen).Sound := by
  rw [applyRuling]
  cases kept.bind Classification.ruled with
  | none       => exact h
  | some ruled =>
    dsimp only
    split
    · exact h
    · split
      · exact h
      · exact ⟨nofun, nofun, fun _ _ _ => ⟨rfl, rfl⟩⟩

theorem sound_rule {ruling : Ruling} {reason whom : String} {r : Classification} (hs : ∀ k, prior = some k → k.Sound)
    (h : rule prior ruling reason whom now = some r) : r.Sound := by
  cases prior with
  | none   => cases h
  | some k =>
    simp only [rule] at h
    split at h
    case isTrue  => exact Option.some.inj h ▸ hs k rfl
    case isFalse =>
      rw [← Option.some.inj h]
      refine ⟨fun hl => .inl ⟨_, rfl, ?_⟩, fun _ => rfl, fun ruled hr hw => ⟨?_, rfl⟩⟩
      case refine_1 =>
        cases ruling with
        | lost    => rfl
        | working => cases hl
      case refine_2 =>
        rw [← Option.some.inj hr] at hw
        cases hw
        rfl

theorem sound_run {r : Classification} (h : Run.run step none es = some r) : r.Sound := by
  induction es using List.reverseRecOn generalizing r with
  | nil => cases h
  | append_singleton es e hi =>
    rw [Run.run_concat] at h
    cases e with
    | rule ruling reason whom now => exact sound_rule (fun _ => hi) h
    | observe generation signals thresholds now =>
      obtain ⟨hs, _⟩ | ⟨_, hs⟩ := @step_observe (Run.run step none es) generation signals thresholds now
      case inl => exact hi (hs.symm.trans h)
      case inr =>
        rw [hs, Option.some.injEq] at h
        rw [← h]
        exact sound_applyRuling sound_observed

theorem rule_of_settled {r : Classification} {ruling : Ruling} {reason whom : String} (h : r.needsOperator = false) :
    rule (some r) ruling reason whom now = some r := by
  simp [rule, h]

theorem step_generation {r : Classification} : ∃ r', step (some r) e = some r' ∧ r.generation ≤ r'.generation := by
  cases e with
  | rule ruling reason whom now =>
    simp only [step, rule]
    split
    · exact ⟨r, rfl, le_rfl⟩
    · exact ⟨_, rfl, le_rfl⟩
  | observe generation signals thresholds now =>
    rw [step, record]
    by_cases ho : outdated (some r) generation now
    case pos => exact ⟨r, if_pos ho, le_rfl⟩
    case neg =>
      have hle : r.generation ≤ generation := by
        refine not_lt.mp fun hlt => ho ?_
        simp [outdated, hlt]
      refine ⟨_, if_neg ho, ?_⟩
      rw [classify]
      cases hk : (keptOf (some r) generation).filter (·.state = .lost) with
      | some lost =>
        obtain ⟨hkept, _⟩ := Option.filter_eq_some_iff.mp hk
        rw [Option.some.inj (keptOf_eq_some hkept).left]
      | none      =>
        obtain ⟨_, _, _, _, hr⟩ := @applyRuling_eq (keptOf (some r) generation)
          (observed generation signals (keptOf (some r) generation) thresholds now)
        dsimp only
        rw [hr]
        exact hle

-- A lost execution stays as it is until a later generation is observed.
theorem step_lost {r : Classification} (hl : r.state = .lost) (hs : r.Sound) :
    step (some r) e = some r ∨ ∃ r', step (some r) e = some r' ∧ r.generation < r'.generation := by
  cases e with
  | rule ruling reason whom now => exact .inl (rule_of_settled (hs.lost hl))
  | observe generation signals thresholds now =>
    by_cases hg : r.generation = generation
    case pos =>
      have hkept : keptOf (some r) generation = some r := by simp [keptOf, hg]
      have hlost : (some r).filter (·.state = .lost) = some r := by simp [hl]
      rw [step, record, classify, hkept, hlost]
      exact .inl (ite_self _)
    case neg =>
      rw [step, record]
      by_cases ho : outdated (some r) generation now
      case pos => exact .inl (if_pos ho)
      case neg =>
        have hlt : r.generation < generation := by
          refine lt_of_le_of_ne (not_lt.mp fun hlt => ho ?_) hg
          simp [outdated, hlt]
        have hkept : keptOf (some r) generation = none := by simp [keptOf, hg]
        refine .inr ⟨_, if_neg ho, ?_⟩
        rw [classify, hkept]
        exact hlt

theorem lost_run {r : Classification} {later : List Event} (hl : r.state = .lost) (hs : r.Sound) :
    Run.run step (some r) later = some r ∨
      ∃ r', Run.run step (some r) later = some r' ∧ r.generation < r'.generation := by
  induction later using List.reverseRecOn with
  | nil => exact .inl rfl
  | append_singleton later e hi =>
    rw [Run.run_concat]
    obtain hi | ⟨r', hi, hlt⟩ := hi
    case inl =>
      rw [hi]
      exact step_lost hl hs
    case inr =>
      obtain ⟨r'', hstep, hle⟩ := @step_generation e r'
      rw [hi]
      exact .inr ⟨r'', hstep, hlt.trans_le hle⟩

-- The observation sees the execution suspect or lost, with no end observed after the time.
def Quiet (time : ℚ) (prior : Record) : Event → Prop
  | .rule _ _ _ _                              => True
  | .observe generation signals thresholds now => outdated prior generation now = false →
    (∃ r, prior = some r ∧ r.generation = generation) ∧
      let seen := observed generation signals (keptOf prior generation) thresholds now
      (seen.state = .suspect ∨ seen.state = .lost) ∧ lostAfter seen.sources time = false

-- What an operator ruled to be working.
def Classification.RuledWorking (r : Classification) (ruled : Ruled) : Prop :=
  r.state = .working ∧ r.needsOperator = false ∧ r.ruled = some ruled

theorem ruled_step {r : Classification} {ruled : Ruled} (hw : ruled.ruling = .working) (h : r.RuledWorking ruled)
    (hq : Quiet ruled.time (some r) e) : ∃ r', step (some r) e = some r' ∧ r'.RuledWorking ruled := by
  cases e with
  | rule ruling reason whom now => exact ⟨r, rule_of_settled h.right.left, h⟩
  | observe generation signals thresholds now =>
    rw [step, record]
    by_cases ho : outdated (some r) generation now
    case pos => exact ⟨r, if_pos ho, h⟩
    case neg =>
      obtain ⟨⟨k, hk, hg⟩, hstate, hafter⟩ := hq (Bool.eq_false_iff.mpr ho)
      obtain rfl := Option.some.inj hk
      have hkept : keptOf (some r) generation = some r := by simp [keptOf, hg]
      have hlive : (some r).filter (·.state = .lost) = none := by simp [h.left]
      rw [if_neg ho, classify, hkept, hlive]
      rw [hkept] at hstate hafter
      refine ⟨_, rfl, ?_⟩
      simp only [applyRuling, Option.bind_some, h.right.right]
      rw [if_neg (by simp [hw, hstate]), hafter]
      exact ⟨rfl, rfl, rfl⟩

theorem ruled_run {r : Classification} {ruled : Ruled} {later : List Event} (hw : ruled.ruling = .working)
    (h : r.RuledWorking ruled) (hq : Run.Along step (Quiet ruled.time) (some r) later) :
    ∃ r', Run.run step (some r) later = some r' ∧ r'.RuledWorking ruled := by
  induction later generalizing r with
  | nil => exact ⟨r, rfl, h⟩
  | cons e later hi =>
    obtain ⟨r', hs, hr'⟩ := ruled_step hw h hq.left
    rw [Run.run_cons, hs]
    exact hi hr' (hs ▸ hq.right)

end Rulings

section Run

theorem gone_delivered {r : Classification} (h : Run.run step none es = some r) (hg : gone r.sources = true) :
    ∃ signal ∈ delivered es, showsEnd signal.source signal.seen = true := by
  obtain ⟨source, _, hs⟩ := List.any_eq_true.mp hg
  cases hf : r.sources source with
  | none       => rw [hf] at hs; cases hs
  | some found =>
    rw [hf] at hs
    obtain ⟨signal, hm, rfl, rfl⟩ := sources_run h hf
    exact ⟨signal, hm, hs⟩

-- What holds of an execution after the classifications and rulings of a run.
structure Lasting (es : List Event) : Prop where
  proven : ∀ before generation signals thresholds now r, es = before ++ [.observe generation signals thresholds now] →
    Run.run step none es = some r → r.state = .lost → Run.run step none before ≠ some r → thresholds.mode = .standard ∧
      ∃ earlier first recent, findings none es = earlier ++ first :: recent ∧
        thresholds.lostAfterS ≤ now - first.now ∧ ∀ f ∈ first :: recent, f.Proves r.generation
  shown  : ∀ r, Run.run step none es = some r → r.state = .lost →
    (∃ ruled, r.ruled = some ruled ∧ ruled.ruling = .lost) ∨
      ∃ signal ∈ delivered es, showsEnd signal.source signal.seen = true
  final  : ∀ later r, Run.run step none es = some r → r.state = .lost → Run.run step none (es ++ later) = some r ∨
    ∃ r', Run.run step none (es ++ later) = some r' ∧ r.generation < r'.generation
  ruled  : ∀ later r ruled, Run.run step none es = some r → r.ruled = some ruled → ruled.ruling = .working →
    Run.Along step (Quiet ruled.time) (some r) later →
      ∃ r', Run.run step none (es ++ later) = some r' ∧ r'.RuledWorking ruled
  merged : ∀ es' generation, Run.Along step (Taken generation) none es → Run.Along step (Taken generation) none es' →
    (delivered es).Perm (delivered es') → Distinct (delivered es) →
      remembered (Run.run step none es) = remembered (Run.run step none es')

theorem classifications_last (es : List Event) : Lasting es where
  proven _ _ _ _ _ _ he h hl hn := by
    subst he
    exact lost_proven h hl hn
  shown _ h hl := ((sound_run h).shown hl).imp_right (gone_delivered h)
  final _ _ h hl := by
    rw [Run.run_append, h]
    exact lost_run hl (sound_run h)
  ruled _ _ ruled h hr hw hq := by
    obtain ⟨hstate, hneeds⟩ := (sound_run h).working ruled hr hw
    rw [Run.run_append, h]
    exact ruled_run hw ⟨hstate, hneeds, hr⟩ hq
  merged _ _ h h' hp hd := by
    rw [(remembered_run h).left, (remembered_run h').left, latest_perm hd hp]

def pod (reading : Reading) (observedAt : ℚ) (value : String) : Signal :=
  ⟨.kubernetes, reading, observedAt, value⟩

def observes (signals : List Signal) (mode : Mode) (now : ℚ) : Event :=
  .observe 1 signals ⟨120, 600, mode⟩ now

-- A stale heartbeat, a ruling, and a fresh heartbeat that goes stale.
def recovers : List Event :=
  [observes [⟨.heartbeat, .ok, 100, ""⟩, pod .ok 1000 "Running"] .conservative 1000, .rule .working "answered" "operator" 1010,
    observes [⟨.heartbeat, .ok, 1020, ""⟩] .conservative 1020, observes [] .conservative 3000]

-- Two signals about a Pod in one order and in the other, in which the execution is lost before the second comes.
def early : List Event :=
  [observes [pod .ok 20 "Running"] .standard 20, observes [pod .notFound 10 ""] .standard 610]

def late : List Event :=
  [observes [pod .notFound 10 ""] .standard 10, observes [] .standard 610, observes [pod .ok 20 "Running"] .standard 620]

-- The Pod is not found at first, and runs when the supervisor has ended.
def changes : List Event :=
  [observes [pod .notFound 10 ""] .standard 10,
    observes [pod .ok 600 "Running", ⟨.supervisor, .ok, 600, "exited"⟩] .standard 610]

theorem rulings_end : ((Run.run step none (recovers.take 2)).map Classification.state = some .working ∧
      (Run.run step none recovers).map Classification.state = some .suspect ∧
        ∀ signal ∈ delivered recovers, showsEnd signal.source signal.seen = false) ∧
    ((delivered early).Perm (delivered late) ∧ Distinct (delivered early) ∧
      remembered (Run.run step none early) .kubernetes ≠ remembered (Run.run step none late) .kubernetes) ∧
    (Run.run step none changes).map Classification.state = some .lost ∧
      (remembered (Run.run step none changes) .kubernetes).any (showsEnd .kubernetes) = false := by
  decide +kernel

end Run

end Observation
