import Agentihooks.Authority.Claims
import Agentihooks.Authority.Theorems.Claims

namespace Authority

open Program Fencing Execution

variable {d d' : Document} {rows : List JournalEntry} {task : String} {entry : JournalEntry}
variable {current : TaskClaim} {previous recovered : Option TaskClaim} {event : Option JournalEvent}

-- The generation an entry has to have after a claim.
def nextGeneration (previous : Option TaskClaim) (event : JournalEvent) : ℕ :=
  previous.elim 0 (·.generation) + if event = .admitted then 1 else 0

theorem reconstruct_concat_ok :
    reconstruct (rows ++ [entry]) = .ok recovered ↔
      ∃ previous, reconstruct rows = .ok previous ∧
        entry.claim.generation = nextGeneration previous entry.event ∧ recovered = some entry.claim := by
  have hc : reconstruct (rows ++ [entry]) =
      reconstruct rows >>= fun recovered => replayEntry recovered entry := by
    simp [reconstruct]
  rw [hc]
  cases h : reconstruct rows
  case error => simp [Bind.bind, Except.bind]
  case ok previous =>
    simp only [Bind.bind, Except.bind, replayEntry, guard_ok, Except.ok.injEq, exists_eq_left',
      nextGeneration]
    rw [eq_comm (a := recovered)]

theorem reconstruct_prefix {post : List JournalEntry} (h : reconstruct (rows ++ post) = .ok recovered) :
    ∃ previous, reconstruct rows = .ok previous := by
  induction post using List.reverseRecOn generalizing recovered
  case nil => exact ⟨recovered, by simpa using h⟩
  case append_singleton post last hi =>
    rw [← List.append_assoc, reconstruct_concat_ok] at h
    obtain ⟨previous, hp, _⟩ := h
    exact hi hp

-- A journal that can be replayed leads to the claim of its last entry.
theorem getLast_of_reconstruct (h : reconstruct rows = .ok recovered) :
    rows.getLast?.map (·.claim) = recovered := by
  rcases List.eq_nil_or_concat rows with rfl | ⟨rows, entry, rfl⟩
  · cases h
    rfl
  · rw [List.concat_eq_append, reconstruct_concat_ok] at h
    obtain ⟨_, _, _, rfl⟩ := h
    simp

-- Every entry of a journal that can be replayed goes on from the one before it: an admission opens the
-- next generation, and nothing else does.
theorem generation_of_reconstruct {pre post : List JournalEntry}
    (h : reconstruct (pre ++ entry :: post) = .ok recovered) :
    entry.claim.generation = nextGeneration (pre.getLast?.map (·.claim)) entry.event := by
  rw [List.append_cons] at h
  obtain ⟨_, h⟩ := reconstruct_prefix h
  obtain ⟨previous, hp, hg, _⟩ := reconstruct_concat_ok.mp h
  rw [getLast_of_reconstruct hp, hg]

theorem reconstruct_appended (h : reconstruct rows = .ok previous) (hg : Goes rows previous event current) :
    reconstruct (rows ++ appended current previous event) = .ok (some current) := by
  cases hg
  case replayed => simpa [appended] using h
  case held claim event ha he hg ht =>
    have happ : appended current (some claim) (some event) = [⟨event, current⟩] := by
      cases event <;> first | rfl | exact absurd rfl he
    rw [happ, reconstruct_concat_ok]
    exact ⟨some claim, h, by simp [nextGeneration, he, hg], rfl⟩
  case admitted hc hx hg =>
    by_cases ha : ∃ claim, previous = some claim ∧ claim.state = .active
    case pos =>
      obtain ⟨claim, rfl, ha⟩ := ha
      simp only [appended, Option.filter, ha, decide_true, if_true, Option.toList_some, List.map_cons,
        List.map_nil]
      rw [← List.append_assoc, reconstruct_concat_ok]
      refine ⟨some { claim with state := .fenced }, ?_, by simpa [nextGeneration] using hg, rfl⟩
      exact reconstruct_concat_ok.mpr ⟨some claim, h, by simp [nextGeneration], rfl⟩
    case neg =>
      have hf : previous.filter (·.state = .active) = none := by
        cases previous
        case none       => rfl
        case some claim =>
          have hn : claim.state ≠ .active := fun hs => ha ⟨claim, rfl, hs⟩
          simp [Option.filter, hn]
      simp only [appended, hf, Option.toList_none, List.map_nil, List.nil_append]
      rw [reconstruct_concat_ok]
      refine ⟨previous, h, ?_, rfl⟩
      cases previous <;> simpa [nextGeneration] using hg

-- The executions a journal admitted.
def admissions (rows : List JournalEntry) : List String :=
  (rows.filter (·.event = .admitted)).map (·.claim.executionId)

theorem admissions_appended (hg : Goes rows previous event current) (h : (admissions rows).Nodup) :
    (admissions (rows ++ appended current previous event)).Nodup := by
  have happ : admissions (rows ++ appended current previous event) =
      admissions rows ++ if event = some .admitted then [current.executionId] else [] := by
    cases hg
    case replayed => simp [appended]
    case held claim event ha he _ _ =>
      cases event <;> simp_all [appended, admissions]
    case admitted =>
      cases hf : previous.filter (·.state = .active) <;> simp [appended, admissions, hf]
  rw [happ]
  split
  case isFalse => simpa using h
  case isTrue he =>
    subst he
    rw [List.nodup_append]
    refine ⟨h, by simp, fun x hx y hy => ?_⟩
    obtain rfl := List.mem_singleton.mp hy
    obtain ⟨entry, hm, rfl⟩ := List.mem_map.mp hx
    cases hg
    case held he _ _ => exact absurd rfl he
    case admitted hc hx hg => exact hx entry (List.mem_of_mem_filter hm)

-- What holds of the claims and the journals of a reachable document.
structure Authoritative (d : Document) : Prop where
  filed         : ∀ {task claim}, (d .claims).lookup task = some claim → claim.taskId = task
  reconstructed : ∀ task, reconstruct (journal d task) = .ok ((d .claims).lookup task)
  admitted      : ∀ task, (admissions (journal d task)).Nodup

namespace Authoritative

theorem empty : Authoritative .empty where
  filed         := fun h => by simp [Document.empty] at h
  reconstructed := fun task => by simp [journal, Document.empty, reconstruct]; rfl
  admitted      := fun task => by simp [journal, Document.empty, admissions]

variable (h : Authoritative d)
include h

theorem effect (he : Effect d d') : Authoritative d' := by
  cases he
  case same hc hj hf =>
    constructor <;> simp only [journal, hc, hj]
    case filed => exact h.filed
    case reconstructed => exact h.reconstructed
    case admitted => exact h.admitted
  case commits current previous event fence hd hp hg =>
    have hr := h.reconstructed current.taskId
    have hj (task : String) : journal d' task =
        if task = current.taskId then
          journal d current.taskId ++ appended current previous event
        else journal d task := by
      by_cases ht : task = current.taskId
      case pos => subst ht; simp [journal, hd.journals]
      case neg => simp [journal, hd.journals, ht]
    have hc (task : String) : (d' .claims).lookup task =
        if task = current.taskId then some current else (d .claims).lookup task := by
      by_cases ht : task = current.taskId
      case pos => subst ht; simp [hd.claims]
      case neg => simp [hd.claims, ht]
    rw [hp] at hr
    constructor
    case filed =>
      intro task claim hk
      rw [hc] at hk
      split at hk
      case isTrue ht => cases hk; exact ht.symm
      case isFalse   => exact h.filed hk
    case reconstructed =>
      intro task
      rw [hc, hj]
      split
      case isTrue  => exact reconstruct_appended hr hg
      case isFalse => exact h.reconstructed task
    case admitted =>
      intro task
      rw [hj]
      split
      case isTrue  => exact admissions_appended hg (h.admitted _)
      case isFalse => exact h.admitted task

theorem attempt {operation : Operation} {history : History} {held : Option Held} {now : Int}
    {r : Option TaskClaim} (hx : attempt d operation history held now = .ok (r, d')) : Effect d d' := by
  replace hx := (Lease.fenced_ok hx).left
  cases operation <;> simp only [Operation.change] at hx
  case admitClaim =>
    obtain ⟨_, hx, _⟩ := exec_map_ok hx
    exact effect_admit h.filed hx
  case renew =>
    obtain ⟨_, hx, _⟩ := exec_map_ok hx
    exact effect_renew h.filed hx
  case release =>
    obtain ⟨_, hx, _⟩ := exec_map_ok hx
    exact effect_release h.filed hx
  case complete =>
    obtain ⟨_, hx, _⟩ := exec_map_ok hx
    exact effect_complete h.filed hx
  case replay request task => exact (effect_replay h.filed (h.reconstructed task) hx).left

theorem effect_step {e : Event} : Effect d (step d e) := by
  unfold step
  split
  case h_1 =>
    split
    case h_1 heq => exact h.attempt heq
    case h_2     => exact .refl
  case h_2 => exact .same (by simp) (by simp) (by simp)

omit h in
theorem run (es : List Event) : Authoritative (run es) :=
  Run.invariant (fun _ _ h => h.effect h.effect_step) .empty

end Authoritative

-- How a document goes on: journals grow at their end, a completed claim is the last one of its task, and
-- a fence only goes up.
structure Evolves (d d' : Document) : Prop where
  journals  : ∀ task, journal d task <+: journal d' task
  completed : ∀ {task claim}, (d .claims).lookup task = some claim → claim.state = .completed →
    (d' .claims).lookup task = some claim
  fences    : ∀ {key fence}, (d .fences).lookup key = some fence →
    ∃ fence', (d' .fences).lookup key = some fence' ∧ (fence.sequence < fence'.sequence ∨ fence' = fence)

namespace Evolves

theorem refl : Evolves d d where
  journals  := fun _ => List.prefix_rfl
  completed := fun h _ => h
  fences    := fun h => ⟨_, h, .inr rfl⟩

theorem trans {d'' : Document} (h₁ : Evolves d d') (h₂ : Evolves d' d'') : Evolves d d'' where
  journals  := fun task => (h₁.journals task).trans (h₂.journals task)
  completed := fun h hc => h₂.completed (h₁.completed h hc) hc
  fences    := fun h => by
    obtain ⟨fence', hk, ho⟩ := h₁.fences h
    obtain ⟨fence'', hk', ho'⟩ := h₂.fences hk
    refine ⟨fence'', hk', ?_⟩
    rcases ho with ho | rfl <;> rcases ho' with ho' | rfl
    · exact .inl (ho.trans ho')
    · exact .inl ho
    · exact .inl ho'
    · exact .inr rfl

theorem advance_ok {seen next : Fence} {fence : RenewalFence}
    (h : advance (some seen) fence = .ok next) : seen.sequence < next.sequence ∨ next = seen := by
  unfold advance at h
  dsimp only at h
  split at h
  case isTrue => cases h
  case isFalse hn =>
    cases h
    simp only [not_or, not_lt, not_and, not_not] at hn
    rcases hn.left.lt_or_eq with hl | he
    · exact .inl hl
    · refine .inr ?_
      rw [← he, ← hn.right he]

theorem of_effect (he : Effect d d') : Evolves d d' := by
  cases he
  case same hc hj hf =>
    constructor
    case journals => simp [journal, hj]
    case completed => intro task claim hk _; rwa [hc]
    case fences => intro key fence hk; exact ⟨fence, hf ▸ hk, .inr rfl⟩
  case commits current previous event fence hd hp hg =>
    constructor
    case journals =>
      intro task
      by_cases ht : task = current.taskId
      case pos =>
        subst ht
        simp [journal, hd.journals]
      case neg => simp [journal, hd.journals, ht]
    case completed =>
      intro task claim hk hs
      by_cases ht : task = current.taskId
      case neg => simpa [hd.claims, ht] using hk
      case pos =>
        subst ht
        obtain rfl := hp.symm.trans hk
        cases hg
        case admitted hc _ _ => exact absurd hs (hc claim rfl)
        case held _ ha _ _   => rw [ha] at hs; cases hs
        case replayed        => simp [hd.claims]
    case fences =>
      intro key seen hk
      rcases hd.fences key with hf | ⟨fence', _, _, next, ha, hf⟩
      · exact ⟨seen, hf.trans hk, .inr rfl⟩
      · exact ⟨next, hf, advance_ok (hk ▸ ha)⟩

theorem run (es es' : List Event) : Evolves (run es) (run (es ++ es')) := by
  rw [Authority.run, Authority.run, Run.run_append]
  exact Run.monotone (P := fun _ _ => True) (I := Authoritative) (fun _ => refl) trans
    (fun _ _ h _ => h.effect h.effect_step) (fun _ _ h _ => of_effect h.effect_step) (Authoritative.run es)
    (.of_forall fun _ _ => trivial)

end Evolves

-- Completing a completed task once more, with the same result and under the same claim, returns the claim
-- and leaves the document.
theorem complete_again {request : Request} {generation : Int} {claim : TaskClaim} {history : History}
    (h : Authoritative d) (hk : (d .claims).lookup request.scope.taskId = some claim)
    (hs : claim.state = .completed) (hg : 1 ≤ generation) (hi : Identified request.scope generation claim)
    (hr : request.required = .ok ())
    (ha : (scopeOf request.slug request.authorized).exec history d = .ok (request.scope, d)) :
    (complete request generation claim.result).exec history d = .ok ((claim, false), d) := by
  have hl : (journal d request.scope.taskId).getLast?.map (·.claim) = some claim :=
    hk ▸ getLast_of_reconstruct (h.reconstructed _)
  have hn : ¬generation < 1 := by omega
  rw [complete, writeClaim, hr, exec_attempt_bind, exec_bind, ha]
  simpa [hk, hs, identity, hn, hi, journalClaim, journal] using hl

theorem identified_of_holder {generation : Int} {claim : TaskClaim} {now : Int}
    (h : holder scope generation previous now = .ok claim) : previous = some claim ∧ Identified scope generation claim := by
  unfold holder identity at h
  split at h
  case h_1 => cases h
  case h_2 found heq =>
    obtain ⟨_, h⟩ := guard_ok.mp h
    obtain ⟨_, heq⟩ := guard_not_ok.mp heq
    cases h
    cases previous
    case none       => cases heq
    case some found =>
      obtain ⟨hi, heq⟩ := guard_ok.mp heq
      cases heq
      exact ⟨rfl, hi⟩

theorem step_of_refused {operation : Operation} {history : History} {held : Option Held} {now : Int}
    {e : SwarmError} (h : attempt d operation history held now = .error e) :
    step d (.call operation history held now) = d := by
  simp [step, h]

-- The claims and the journals after any run, however it goes on.
theorem authority_run (es es' : List Event) :
    (∀ task,
      (journal (run es) task).getLast?.map (·.claim) = ((run es) .claims).lookup task ∧
      reconstruct (journal (run es) task) = .ok (((run es) .claims).lookup task) ∧
      (∀ pre entry post, journal (run es) task = pre ++ entry :: post →
        entry.claim.generation = nextGeneration (pre.getLast?.map (·.claim)) entry.event) ∧
      (admissions (journal (run es) task)).Nodup) ∧
    Evolves (run es) (run (es ++ es')) ∧
    (∀ (request : Request) (generation : Int) (claim : TaskClaim) (history : History),
      ((run es) .claims).lookup request.scope.taskId = some claim → claim.state = .completed →
      1 ≤ generation → Identified request.scope generation claim → request.required = .ok () →
      (scopeOf request.slug request.authorized).exec history (run es) = .ok (request.scope, run es) →
      (complete request generation claim.result).exec history (run es) = .ok ((claim, false), run es)) ∧
    (∀ (task : String) (scope scope' : Registration) (generation generation' now now' : Int)
      (claim claim' : TaskClaim),
      holder scope generation (((run es) .claims).lookup task) now = .ok claim →
      holder scope' generation' (((run es) .claims).lookup task) now' = .ok claim' →
      scope.executionId = scope'.executionId ∧ scope.generation = scope'.generation ∧
        generation = generation') ∧
    (∀ (operation : Operation) (history : History) (held : Option Held) (now : Int) (e : SwarmError),
      attempt (run es) operation history held now = .error e →
      step (run es) (.call operation history held now) = run es) := by
  have h := Authoritative.run es
  refine ⟨fun task => ⟨?_, h.reconstructed task, ?_, h.admitted task⟩, Evolves.run es es', ?_, ?_, ?_⟩
  case refine_1 => exact getLast_of_reconstruct (h.reconstructed task)
  case refine_2 =>
    intro pre entry post heq
    exact generation_of_reconstruct (heq ▸ h.reconstructed task)
  case refine_3 =>
    intro request generation claim history hk hs hg hi hr ha
    exact complete_again h hk hs hg hi hr ha
  case refine_4 =>
    intro task scope scope' generation generation' now now' claim claim' hh hh'
    obtain ⟨hk, hg, he, hx⟩ := identified_of_holder hh
    obtain ⟨hk', hg', he', hx'⟩ := identified_of_holder hh'
    obtain rfl := Option.some.inj (hk.symm.trans hk')
    exact ⟨he.symm.trans he', hx.symm.trans hx', hg.symm.trans hg'⟩
  case refine_5 =>
    intro operation history held now e
    exact step_of_refused

end Authority
