import Agentihooks.Backfill.Calls
import Agentihooks.Ingest.Theorems.Refusals

-- What a session's handling does to the stores, however far it comes, and that it does it once.

namespace Backfill

open Ingest (Catalog Sound Clash Counted)
open Ingest.Catalog (Provenanced)

variable {run : Run} {item other : Item} {source : Import} {s s' : State}

-- The tables that sessions are handled in.
structure Stores where
  catalog    : Catalog
  sessions   : Dict (String × String) SessionRow
  quarantine : Finset QuarantineRow

def rowsOf (run : Run) (sessionUid : String) (entries : List Entry) : Finset QuarantineRow :=
  (entries.map (⟨run.runId, sessionUid, ·⟩)).toFinset

def ask (run : Run) (item : Item) (source : Import) : Ingest.Request :=
  ⟨run.grant, request run item source, false⟩

def refusedRow (run : Run) (item : Item) (source : Import) (error : Ingest.Rejected) : QuarantineRow :=
  ⟨run.runId, item.sessionUid, ⟨reasonOf error.errorClass, source.generation⟩⟩

-- The stores after a session that was handled without interruption.
def settle (run : Run) (a : Stores) (item : Item) : Stores :=
  let kept := a.quarantine ∪ rowsOf run item.sessionUid item.quarantine
  match item.outcome with
  | .selected source =>
    if (a.sessions.lookup (item.sessionUid, source.generation)).isSome ∨ source.events = [] then
      { a with quarantine := kept }
    else
      match (Ingest.ingest a.catalog (ask run item source)).2 with
      | .committed _     =>
        ⟨(Ingest.ingest a.catalog (ask run item source)).1,
          a.sessions.insert (item.sessionUid, source.generation) (sessionRow run item source), kept⟩
      | .refused _ error => { a with quarantine := insert (refusedRow run item source error) kept }
      | .raised          => { a with quarantine := kept }
  | _ => { a with quarantine := kept }

-- A state on the way from `a` to `b`, the stores before and after a session: the catalog may be ahead of the ledger.
structure Between (a b : Stores) (s : State) : Prop where
  catalog  : Counted a.catalog s.catalog ∨ Counted b.catalog s.catalog
  sessions : s.ledger.sessions = a.sessions
  lower    : a.quarantine ⊆ s.ledger.quarantine
  upper    : s.ledger.quarantine ⊆ b.quarantine

-- The stores of a state, but for the counts of duplicates.
structure Reaches (b : Stores) (s : State) : Prop where
  catalog    : Counted b.catalog s.catalog
  sessions   : s.ledger.sessions = b.sessions
  quarantine : s.ledger.quarantine = b.quarantine

-- Why a request is refused whenever it is made.
inductive Refuses (run : Run) (item : Item) (source : Import) (c : Catalog) : String → Prop
  | invalid (error : Ingest.Rejected)
    (h : Ingest.check run.grant (request run item source) = .error error) :
    Refuses run item source c (reasonOf error.errorClass)
  | clash (hk : Ingest.check run.grant (request run item source) = .ok ())
    (h : Clash c (request run item source)) : Refuses run item source c (reasonOf .revisionConflict)

theorem Refuses.unique {c : Catalog} {reason reason' : String} (h : Refuses run item source c reason)
    (h' : Refuses run item source c reason') : reason = reason' := by
  cases h with
  | invalid error hk =>
    cases h' with
    | invalid error' hk' => rw [Except.error.inj (hk.symm.trans hk')]
    | clash hk' _        => exact absurd (hk.symm.trans hk') (by simp)
  | clash hk _ =>
    cases h' with
    | invalid error' hk' => exact absurd (hk.symm.trans hk') (by simp)
    | clash _ _          => rfl

-- A session that has been handled: it would leave the stores as they are.
structure Absorbed (run : Run) (item : Item) (a : Stores) : Prop where
  rows     : rowsOf run item.sessionUid item.quarantine ⊆ a.quarantine
  selected : ∀ source, item.outcome = .selected source →
    (a.sessions.lookup (item.sessionUid, source.generation)).isSome ∨ source.events = [] ∨
      ∃ reason, Refuses run item source a.catalog reason ∧
        (⟨run.runId, item.sessionUid, ⟨reason, source.generation⟩⟩ : QuarantineRow) ∈ a.quarantine

section Statements

theorem write_cases (s : State) (change : Ledger → Ledger) :
    (∃ l, write s change = .done () { s with ledger := change s.ledger, lucks := l } ∧ (s.lucks = [] → l = [])) ∨
      ∃ l, write s change = .halt .crashed { s with lucks := l } ∧ s.lucks ≠ [] := by
  unfold write
  split
  case h_1 hl => exact .inl ⟨[], by simp [← hl], fun _ => rfl⟩
  case h_2 l hl => exact .inl ⟨l, rfl, fun hn => by simp [hl] at hn⟩
  case h_3 l _ hl => exact .inr ⟨l, rfl, by simp [hl]⟩

theorem ingest_cases (s : State) (grant : Ingest.Grant) (q : JsonValue) (place : String × String) :
    (∃ fails l, ingest s grant q place = ingested s ⟨grant, q, fails⟩ place l ∧
      (s.lucks = [] → fails = false ∧ l = [])) ∨
      ∃ l, ingest s grant q place = .halt .crashed { s with lucks := l } ∧ s.lucks ≠ [] := by
  unfold ingest
  split
  case h_1 => exact .inl ⟨false, [], rfl, fun _ => ⟨rfl, rfl⟩⟩
  case h_2 l hl => exact .inl ⟨false, l, rfl, fun hn => by simp [hl] at hn⟩
  case h_3 l hl => exact .inl ⟨true, l, rfl, fun hn => by simp [hl] at hn⟩
  case h_4 l hl => exact .inr ⟨l, rfl, by simp [hl]⟩

end Statements

section Settle

variable {a : Stores}

theorem settle_catalog (run : Run) (item : Item) (a : Stores) : (settle run a item).catalog = a.catalog ∨
    ∃ r, (settle run a item).catalog = Ingest.step a.catalog r := by
  unfold settle
  extract_lets kept
  split
  case h_2 => exact .inl rfl
  case h_1 source _ =>
    split
    case isTrue  => exact .inl rfl
    case isFalse =>
      split
      case h_1 => exact .inr ⟨ask run item source, rfl⟩
      case h_2 => exact .inl rfl
      case h_3 => exact .inl rfl

theorem settle_quarantine : a.quarantine ∪ rowsOf run item.sessionUid item.quarantine ⊆ (settle run a item).quarantine := by
  unfold settle
  extract_lets kept
  split
  case h_2 => exact subset_rfl
  case h_1 =>
    split
    case isTrue  => exact subset_rfl
    case isFalse =>
      split
      case h_1 => exact subset_rfl
      case h_2 => exact Finset.subset_insert _ _
      case h_3 => exact subset_rfl

theorem settle_sessions {key : String × String} (h : (a.sessions.lookup key).isSome) :
    ((settle run a item).sessions.lookup key).isSome := by
  unfold settle
  extract_lets kept
  split
  case h_2 => exact h
  case h_1 source _ =>
    split
    case isTrue  => exact h
    case isFalse =>
      split
      case h_2 => exact h
      case h_3 => exact h
      case h_1 =>
        by_cases hk : key = (item.sessionUid, source.generation)
        case pos =>
          rw [hk, Finmap.lookup_insert]
          rfl
        case neg => rwa [Finmap.lookup_insert_of_ne _ hk]

theorem sound_settle (h : Sound a.catalog) : Sound (settle run a item).catalog := by
  obtain he | ⟨r, he⟩ := settle_catalog run item a
  · rwa [he]
  · rw [he]
    exact h.step

theorem provenanced_settle (h : Provenanced a.catalog) : Provenanced (settle run a item).catalog := by
  obtain he | ⟨r, he⟩ := settle_catalog run item a
  · rwa [he]
  · rw [he]
    exact Ingest.provenanced_step h

theorem Refuses.settle {reason : String} (hs : Sound a.catalog) (h : Refuses run item source a.catalog reason) :
    Refuses run item source (settle run a other).catalog reason := by
  cases h with
  | invalid error h => exact .invalid error h
  | clash hk h      =>
    refine .clash hk ?_
    obtain he | ⟨r, he⟩ := settle_catalog run other a
    · rwa [he]
    · rw [he]
      exact h.step hs

-- A session that was handled stays handled.
theorem Absorbed.settle (hs : Sound a.catalog) (h : Absorbed run item a) : Absorbed run item (settle run a other) where
  rows     := h.rows.trans (Finset.subset_union_left.trans settle_quarantine)
  selected := by
    intro source ho
    obtain hi | he | ⟨reason, hr, hq⟩ := h.selected source ho
    · exact .inl (settle_sessions hi)
    · exact .inr (.inl he)
    · exact .inr (.inr ⟨reason, hr.settle hs, settle_quarantine (Finset.mem_union_left _ hq)⟩)

theorem absorbed_settle (hs : Sound a.catalog) (hp : Provenanced a.catalog) : Absorbed run item (settle run a item) where
  rows     := Finset.subset_union_right.trans settle_quarantine
  selected := by
    intro source ho
    by_cases hi : (a.sessions.lookup (item.sessionUid, source.generation)).isSome
    case pos => exact .inl (settle_sessions hi)
    case neg =>
      by_cases he : source.events = []
      case pos => exact .inr (.inl he)
      case neg =>
        simp only [Backfill.settle, ho, hi, he, Bool.false_eq_true, or_self, if_false]
        cases Ingest.answered (r := ask run item source) hs hp with
        | invalid error hk h        =>
          simp only [h]
          exact .inr (.inr ⟨_, .invalid error hk, Finset.mem_insert_self _ _⟩)
        | failed _ hf _             => cases hf
        | clashed detail hk _ hc h  =>
          simp only [h]
          exact .inr (.inr ⟨_, .clash hk hc, Finset.mem_insert_self _ _⟩)
        | committed answer _ _ _ h  =>
          simp only [h]
          exact .inl (by simp)

end Settle

section Sessions

variable {a b : Stores}

-- The quarantine entries of a session are there, or those before the crash.
theorem quarantineAll_cases (run : Run) (sessionUid : String) (entries : List Entry) (s : State) :
    (∃ l, quarantineAll run sessionUid entries s = .done () { s with
        ledger := { s.ledger with quarantine := s.ledger.quarantine ∪ rowsOf run sessionUid entries }, lucks := l } ∧
      (s.lucks = [] → l = [])) ∨
    ∃ q l, quarantineAll run sessionUid entries s = .halt .crashed { s with
        ledger := { s.ledger with quarantine := q }, lucks := l } ∧
      s.ledger.quarantine ⊆ q ∧ q ⊆ s.ledger.quarantine ∪ rowsOf run sessionUid entries ∧ s.lucks ≠ [] := by
  induction entries generalizing s
  case nil => exact .inl ⟨s.lucks, by simp [quarantineAll, rowsOf], id⟩
  case cons entry entries hi =>
    have hrows (q : Finset QuarantineRow) : insert (⟨run.runId, sessionUid, entry⟩ : QuarantineRow) q ∪
        rowsOf run sessionUid entries = q ∪ rowsOf run sessionUid (entry :: entries) := by
      simp [rowsOf, Finset.insert_union]
    obtain ⟨l, hw, hl⟩ | ⟨l, hw, hl⟩ := write_cases s fun l => l.quarantined ⟨run.runId, sessionUid, entry⟩
    · rw [quarantineAll, hw]
      change (∃ l', quarantineAll run sessionUid entries _ = _ ∧ _) ∨ ∃ q l', quarantineAll run sessionUid entries _ = _ ∧ _
      obtain ⟨l', hd, hl'⟩ | ⟨q, l', hd, hlow, hup, hl'⟩ := hi (s := { s with
        ledger := s.ledger.quarantined ⟨run.runId, sessionUid, entry⟩, lucks := l })
      · refine .inl ⟨l', ?_, fun hn => hl' (hl hn)⟩
        rw [hd]
        simp only [Ledger.quarantined, hrows]
      · refine .inr ⟨q, l', hd, (Finset.subset_insert _ _).trans hlow, ?_, fun hn => hl' (hl hn)⟩
        rw [← hrows]
        exact hup
    · exact .inr ⟨s.ledger.quarantine, l, by rw [quarantineAll, hw]; rfl, subset_rfl, Finset.subset_union_left, hl⟩

-- The stores as a state has them.
def State.stores (s : State) : Stores :=
  ⟨s.catalog, s.ledger.sessions, s.ledger.quarantine⟩

-- A step that leaves all as it was, unless for the luck that is used up.
def Idle {α : Type} (s : State) (step : Step α) : Prop :=
  (∃ a l, step = .done a { s with lucks := l } ∧ (s.lucks = [] → l = [])) ∨
    ∃ h l, step = .halt h { s with lucks := l } ∧ (∀ refusal, h ≠ .rejected refusal) ∧ s.lucks ≠ []

theorem idle_quarantined {row : QuarantineRow} {l : List Luck} {α : Type} {x : α} (hr : row ∈ s.ledger.quarantine)
    (hl : s.lucks = [] → l = []) :
    Idle s ((write { s with lucks := l } fun l => l.quarantined row).bind fun _ s => .done x s) := by
  have he : s.ledger.quarantined row = s.ledger := by
    rw [Ledger.quarantined, Finset.insert_eq_of_mem hr]
  obtain ⟨l', hw, hl'⟩ | ⟨l', hw, hl'⟩ := write_cases { s with lucks := l } fun l => l.quarantined row
  · rw [hw]
    exact .inl ⟨x, l', by simp only [Step.bind, he], fun hn => hl' (hl hn)⟩
  · rw [hw]
    exact .inr ⟨.crashed, l', rfl, by simp, fun hn => hl' (hl hn)⟩

theorem Idle.after {α : Type} {step : Step α} {l : List Luck} (hl : s.lucks = [] → l = [])
    (h : Idle { s with lucks := l } step) : Idle s step := by
  obtain ⟨x, l', hd, hl'⟩ | ⟨halt, l', hd, hh, hl'⟩ := h
  · exact .inl ⟨x, l', hd, fun hn => hl' (hl hn)⟩
  · exact .inr ⟨halt, l', hd, hh, fun hn => hl' (hl hn)⟩

-- All that the import of a session comes to, if it was not imported and has events.
inductive Imports (run : Run) (item : Item) (source : Import) (s : State) : Step Handled → Prop
  | crashed (l : List Luck) (hl : s.lucks ≠ []) : Imports run item source s (.halt .crashed { s with lucks := l })
  | unavailable (l : List Luck) (hl : s.lucks ≠ []) : Imports run item source s (.halt .unavailable { s with lucks := l })
  | refused (reason : String) (l : List Luck) (hr : Refuses run item source s.catalog reason)
    (hl : s.lucks = [] → l = []) :
    Imports run item source s ((write { s with lucks := l } fun l => l.quarantined
      ⟨run.runId, item.sessionUid, ⟨reason, source.generation⟩⟩).bind fun _ s => .done .quarantined s)
  | committed (answer : Ingest.Answer) (l : List Luck) (hr : ∀ reason, ¬ Refuses run item source s.catalog reason)
    (ha : (Ingest.ingest s.catalog (ask run item source)).2 = .committed answer) (hl : s.lucks = [] → l = []) :
    Imports run item source s ((write { s with
      catalog  := (Ingest.ingest s.catalog (ask run item source)).1
      lucks    := l
      inserted := s.inserted ++ if answer.state = .committed then [(item.sessionUid, source.generation)] else [] }
      fun l => l.mark item.sessionUid source.generation (sessionRow run item source)).bind fun _ s =>
        .done (if answer.state = .committed then .committed else .replayed) s)

theorem importSession_imports (run : Run) (hs : Sound s.catalog) (hp : Provenanced s.catalog)
    (hi : s.ledger.imported item.sessionUid source.generation = false) (he : source.events ≠ []) :
    Imports run item source s (importSession run item source s) := by
  simp only [importSession, hi, he, Bool.false_eq_true, if_false]
  obtain ⟨fails, l, hq, hl⟩ | ⟨l, hq, hl⟩ := ingest_cases s run.grant (request run item source)
    (item.sessionUid, source.generation)
  case inr =>
    rw [hq]
    exact .crashed l hl
  case inl =>
    rw [hq, ingested]
    cases Ingest.answered (r := ⟨run.grant, request run item source, fails⟩) hs hp with
    | invalid error hk hin =>
      simp only [hin, Step.bind, List.append_nil, if_neg (Ingest.check_spares error hk)]
      exact .refused _ l (.invalid error hk) fun hn => (hl hn).right
    | failed hk hf hin =>
      simp only [hin, Step.bind, List.append_nil]
      refine .unavailable l fun hn => ?_
      have hfails : fails = true := hf
      rw [(hl hn).left] at hfails
      cases hfails
    | clashed detail hk hf hc hin =>
      simp only [hin, Step.bind, List.append_nil]
      exact .refused _ l (.clash hk hc) fun hn => (hl hn).right
    | committed answer hk hf hc hin =>
      obtain rfl : fails = false := hf
      simp only [hin, Step.bind]
      refine .committed answer l (fun reason hr => ?_) hin fun hn => (hl hn).right
      cases hr with
      | invalid error' hk' => exact absurd (hk.symm.trans hk') (by simp)
      | clash _ hclash     => exact hc hclash

theorem importSession_absorbed (hs : Sound s.catalog) (hp : Provenanced s.catalog) (h : Absorbed run item s.stores)
    (ho : item.outcome = .selected source) : Idle s (importSession run item source s) := by
  by_cases hi : s.ledger.imported item.sessionUid source.generation
  case pos => exact .inl ⟨.alreadyImported, s.lucks, by simp [importSession, hi], id⟩
  case neg =>
    have hi := Bool.eq_false_iff.mpr hi
    by_cases he : source.events = []
    case pos => exact .inl ⟨.noRecords, s.lucks, by simp [importSession, hi, he], id⟩
    case neg =>
      obtain hf | hf | ⟨reason, hr, hrow⟩ := h.selected source ho
      · exact absurd hf (by simpa [State.stores, Ledger.imported] using hi)
      · exact absurd hf he
      · have himports := importSession_imports run hs hp hi he
        generalize importSession run item source s = step at himports
        cases himports with
        | crashed l hl               => exact .inr ⟨.crashed, l, rfl, by simp, hl⟩
        | unavailable l hl           => exact .inr ⟨.unavailable, l, rfl, by simp, hl⟩
        | refused reason' l hr' hl   =>
          obtain rfl := hr.unique hr'
          exact idle_quarantined hrow hl
        | committed answer l hn _ _  => exact absurd hr (hn reason)

-- A session that was handled is handled again to no effect.
theorem session_absorbed (hs : Sound s.catalog) (hp : Provenanced s.catalog) (h : Absorbed run item s.stores) :
    Idle s (session run item s) := by
  obtain ⟨l, hd, hl⟩ | ⟨q, l, hd, hlow, hup, hl⟩ := quarantineAll_cases run item.sessionUid item.quarantine s
  · have hrows : s.ledger.quarantine ∪ rowsOf run item.sessionUid item.quarantine = s.ledger.quarantine :=
      Finset.union_eq_left.mpr h.rows
    rw [hrows] at hd
    rw [session, hd]
    refine Idle.after hl ?_
    change Idle _ (match item.outcome with | _ => _)
    cases ho : item.outcome with
    | selected source => exact importSession_absorbed hs hp h ho
    | quarantined     => exact .inl ⟨_, l, rfl, id⟩
    | missing         => exact .inl ⟨_, l, rfl, id⟩
  · have hq : q = s.ledger.quarantine :=
      Finset.Subset.antisymm (hup.trans (Finset.union_subset subset_rfl h.rows)) hlow
    rw [session, hd, hq]
    exact .inr ⟨.crashed, l, rfl, by simp, hl⟩

-- Stores whose catalogs differ in the counts refuse the same.
theorem Refuses.counted {c c' : Catalog} {reason : String} (h : Refuses run item source c reason) (hc : Counted c c') :
    Refuses run item source c' reason := by
  cases h with
  | invalid error h => exact .invalid error h
  | clash hk h      => exact .clash hk (hc.clash.mp h)

theorem Between.sound (ha : Sound a.catalog) (hb : Sound b.catalog) (h : Between a b s) : Sound s.catalog := by
  obtain hc | hc := h.catalog
  · exact ha.counted hc
  · exact hb.counted hc

theorem Between.provenanced (ha : Provenanced a.catalog) (hb : Provenanced b.catalog) (h : Between a b s) :
    Provenanced s.catalog := by
  obtain hc | hc := h.catalog
  · exact ha.counted hc
  · exact hb.counted hc

-- What was handled before is handled also in the state between.
theorem Between.absorbed (hr : ∀ source reason, Refuses run item source a.catalog reason → Refuses run item source b.catalog reason)
    (h : Between a b s) (hi : Absorbed run item a) : Absorbed run item s.stores where
  rows     := hi.rows.trans h.lower
  selected := by
    intro source ho
    obtain hf | he | ⟨reason, hreason, hq⟩ := hi.selected source ho
    · exact .inl (by rwa [State.stores, h.sessions])
    · exact .inr (.inl he)
    · refine .inr (.inr ⟨reason, ?_, h.lower hq⟩)
      obtain hc | hc := h.catalog
      · exact hreason.counted hc
      · exact (hr source reason hreason).counted hc

-- How a session ends that is handled between two stores: in the second of them, or still on the way.
inductive Ends {α : Type} (a b : Stores) (s : State) : Step α → Prop
  | done (x : α) (s' : State) (h : Reaches b s') (hr : s'.ledger.runs = s.ledger.runs) (hl : s.lucks = [] → s'.lucks = []) :
    Ends a b s (.done x s')
  | halt (h : Halt) (s' : State) (hh : ∀ refusal, h ≠ .rejected refusal) (hb : Between a b s')
    (hr : s'.ledger.runs = s.ledger.runs) (hl : s.lucks ≠ []) : Ends a b s (.halt h s')

-- The stores after a session that is not yet imported.
theorem settle_cases (run : Run) (hs : Sound a.catalog) (hp : Provenanced a.catalog) (ho : item.outcome = .selected source)
    (hi : (a.sessions.lookup (item.sessionUid, source.generation)).isSome = false) (he : source.events ≠ []) :
    (∃ reason, Refuses run item source a.catalog reason ∧ settle run a item =
      ⟨a.catalog, a.sessions, insert ⟨run.runId, item.sessionUid, ⟨reason, source.generation⟩⟩
        (a.quarantine ∪ rowsOf run item.sessionUid item.quarantine)⟩) ∨
    ∃ answer, (Ingest.ingest a.catalog (ask run item source)).2 = .committed answer ∧ settle run a item =
      ⟨Ingest.step a.catalog (ask run item source),
        a.sessions.insert (item.sessionUid, source.generation) (sessionRow run item source),
        a.quarantine ∪ rowsOf run item.sessionUid item.quarantine⟩ := by
  simp only [settle, ho, hi, he, Bool.false_eq_true, or_self, if_false]
  cases Ingest.answered (r := ask run item source) hs hp with
  | invalid error hk h        => exact .inl ⟨_, .invalid error hk, by rw [h]; rfl⟩
  | failed _ hf _             => cases hf
  | clashed detail hk _ hc h  => exact .inl ⟨_, .clash hk hc, by rw [h]; rfl⟩
  | committed answer _ _ _ h  => exact .inr ⟨answer, h, by rw [h]; rfl⟩

-- The stores after a session that is not imported, or was before.
theorem settle_idle (ho : item.outcome = .selected source)
    (hi : (a.sessions.lookup (item.sessionUid, source.generation)).isSome ∨ source.events = []) :
    settle run a item = { a with quarantine := a.quarantine ∪ rowsOf run item.sessionUid item.quarantine } := by
  simp only [settle, ho, if_pos hi]

theorem Refuses.not_accepts {c : Catalog} {reason : String} (hs : Sound c) (h : Refuses run item source c reason) :
    ¬ Ingest.Accepts c (ask run item source) := by
  intro ha
  cases h with
  | invalid error hk =>
    obtain ⟨answer, ha⟩ := ha
    have hk : Ingest.check (ask run item source).grant (ask run item source).request = .error error := hk
    simp [Ingest.ingest, hk] at ha
  | clash _ hc       => exact Ingest.not_clash_of_accepts hs ha hc

-- The request that was committed is committed again, and the catalog is left as it is.
theorem again {c : Catalog} {answer : Ingest.Answer} (hs : Sound c)
    (ha : (Ingest.ingest c (ask run item source)).2 = .committed answer) :
    Ingest.Accepts (Ingest.step c (ask run item source)) (ask run item source) ∧
      Counted (Ingest.step c (ask run item source))
        (Ingest.ingest (Ingest.step c (ask run item source)) (ask run item source)).1 := by
  have hk : Ingest.check run.grant (request run item source) = .ok () := by
    cases hk : Ingest.check run.grant (request run item source) with
    | ok _        => rfl
    | error error => exact absurd ⟨answer, ha⟩ (Refuses.not_accepts hs (.invalid error hk))
  obtain ⟨hcount, answer', ha', _⟩ := hs.replays (ask run item source) answer [] (ask run item source) ha rfl hk rfl
  refine ⟨⟨answer', ha'⟩, ?_⟩
  change Counted _ (Ingest.step _ _)
  rw [Run.run_nil] at hcount
  rw [hcount]
  rfl

theorem Reaches.idle (hb : settle run a item =
    { a with quarantine := a.quarantine ∪ rowsOf run item.sessionUid item.quarantine })
    (h : Between a (settle run a item) s) (hrows : rowsOf run item.sessionUid item.quarantine ⊆ s.ledger.quarantine) :
    Reaches (settle run a item) s where
  catalog    := by
    have hc : (settle run a item).catalog = a.catalog := by rw [hb]
    have h := h.catalog
    rwa [hc, or_self, ← hc] at h
  sessions   := by rw [h.sessions, hb]
  quarantine := by
    refine Finset.Subset.antisymm h.upper ?_
    rw [hb]
    exact Finset.union_subset h.lower hrows

theorem importSession_between (hs : Sound a.catalog) (hp : Provenanced a.catalog) (h : Between a (settle run a item) s)
    (hrows : rowsOf run item.sessionUid item.quarantine ⊆ s.ledger.quarantine) (ho : item.outcome = .selected source) :
    Ends a (settle run a item) s (importSession run item source s) := by
  have himported : s.ledger.imported item.sessionUid source.generation =
      (a.sessions.lookup (item.sessionUid, source.generation)).isSome := by
    rw [Ledger.imported, h.sessions]
  by_cases hi : (a.sessions.lookup (item.sessionUid, source.generation)).isSome
  case pos =>
    simp only [importSession, himported, hi, if_true]
    exact .done _ s (.idle (settle_idle ho (.inl hi)) h hrows) rfl id
  case neg =>
    have hi := Bool.eq_false_iff.mpr hi
    by_cases he : source.events = []
    case pos =>
      simp only [importSession, himported, hi, he, Bool.false_eq_true, if_false, if_true]
      exact .done _ s (.idle (settle_idle ho (.inr he)) h hrows) rfl id
    case neg =>
      have hsound := h.sound hs (sound_settle hs)
      have hkept : a.quarantine ∪ rowsOf run item.sessionUid item.quarantine ⊆ s.ledger.quarantine :=
        Finset.union_subset h.lower hrows
      have himports := importSession_imports run hsound (h.provenanced hp (provenanced_settle hp))
        (himported.trans hi) he
      generalize importSession run item source s = step at himports
      obtain ⟨reason', hr', hb⟩ | ⟨answer', ha', hb⟩ := settle_cases run hs hp ho hi he
      · -- The session is refused whenever it is tried, so that the catalog stays as it was.
        have hc : Counted a.catalog s.catalog := by
          have hc : (settle run a item).catalog = a.catalog := by rw [hb]
          simpa [hc] using h.catalog
        cases himports with
        | crashed l hl     => exact .halt _ _ (by simp) ⟨h.catalog, h.sessions, h.lower, h.upper⟩ rfl hl
        | unavailable l hl => exact .halt _ _ (by simp) ⟨h.catalog, h.sessions, h.lower, h.upper⟩ rfl hl
        | committed answer l hn _ _ => exact absurd (hr'.counted hc) (hn reason')
        | refused reason l hr hl    =>
          obtain rfl := (hr'.counted hc).unique hr
          obtain ⟨l', hw, hl'⟩ | ⟨l', hw, hl'⟩ := write_cases { s with lucks := l } fun l =>
            l.quarantined ⟨run.runId, item.sessionUid, ⟨reason', source.generation⟩⟩
          · rw [hw]
            refine .done _ _ ⟨?_, ?_, ?_⟩ rfl fun hn => hl' (hl hn)
            · rw [hb]
              exact hc
            · rw [hb]
              exact h.sessions
            · rw [hb]
              refine Finset.Subset.antisymm ?_ (Finset.insert_subset_insert _ hkept)
              refine Finset.insert_subset (Finset.mem_insert_self _ _) ?_
              have hupper := h.upper
              rwa [hb] at hupper
          · rw [hw]
            exact .halt _ _ (by simp) ⟨h.catalog, h.sessions, h.lower, h.upper⟩ rfl fun hn => hl' (hl hn)
      · -- The session is committed, now or before a crash.
        obtain ⟨haccepts, hagain⟩ := again hs ha'
        have haccepts' : Ingest.Accepts s.catalog (ask run item source) := by
          obtain hc | hc := h.catalog
          · exact ⟨answer', (hc.ingest (r := ask run item source)).right ▸ ha'⟩
          · rw [hb] at hc
            obtain ⟨answer, ha⟩ := haccepts
            exact ⟨answer, (hc.ingest (r := ask run item source)).right ▸ ha⟩
        have hahead : Counted (settle run a item).catalog (Ingest.ingest s.catalog (ask run item source)).1 := by
          rw [hb]
          obtain hc | hc := h.catalog
          · exact hc.ingest.left
          · rw [hb] at hc
            exact hagain.trans hc.ingest.left
        cases himports with
        | crashed l hl      => exact .halt _ _ (by simp) ⟨h.catalog, h.sessions, h.lower, h.upper⟩ rfl hl
        | unavailable l hl  => exact .halt _ _ (by simp) ⟨h.catalog, h.sessions, h.lower, h.upper⟩ rfl hl
        | refused reason l hr hl      => exact absurd haccepts' (hr.not_accepts hsound)
        | committed answer l _ ha hl  =>
          obtain ⟨l', hw, hl'⟩ | ⟨l', hw, hl'⟩ := write_cases
            { s with
              catalog := (Ingest.ingest s.catalog (ask run item source)).1, lucks := l
              inserted := s.inserted ++ if answer.state = .committed then [(item.sessionUid, source.generation)] else [] }
            fun l => l.mark item.sessionUid source.generation (sessionRow run item source)
          · rw [hw]
            have hmark : s.ledger.mark item.sessionUid source.generation (sessionRow run item source) =
                { s.ledger with sessions :=
                    s.ledger.sessions.insert (item.sessionUid, source.generation) (sessionRow run item source) } := by
              simp [Ledger.mark, himported, hi]
            refine .done _ _ ⟨hahead, ?_, ?_⟩ ?_ fun hn => hl' (hl hn)
            · simp only [hmark, hb, h.sessions]
            · simp only [hmark]
              refine Finset.Subset.antisymm h.upper ?_
              rw [hb]
              exact hkept
            · simp only [hmark]
          · rw [hw]
            exact .halt _ _ (by simp) ⟨.inr hahead, h.sessions, h.lower, h.upper⟩ rfl fun hn => hl' (hl hn)

theorem Ends.after {α : Type} {s₁ : State} {step : Step α} (hr : s₁.ledger.runs = s.ledger.runs)
    (hl : s.lucks = [] → s₁.lucks = []) (h : Ends a b s₁ step) : Ends a b s step := by
  cases h with
  | done x s' h hr' hl'     => exact .done x s' h (hr'.trans hr) fun hn => hl' (hl hn)
  | halt h s' hh hb hr' hl' => exact .halt h s' hh hb (hr'.trans hr) fun hn => hl' (hl hn)

-- The handling of a session that was begun, maybe, and not finished.
theorem session_between (hs : Sound a.catalog) (hp : Provenanced a.catalog) (h : Between a (settle run a item) s) :
    Ends a (settle run a item) s (session run item s) := by
  have hupper (q : Finset QuarantineRow) (hq : q ⊆ s.ledger.quarantine ∪ rowsOf run item.sessionUid item.quarantine) :
      q ⊆ (settle run a item).quarantine :=
    hq.trans (Finset.union_subset h.upper (Finset.subset_union_right.trans settle_quarantine))
  obtain ⟨l, hd, hl⟩ | ⟨q, l, hd, hlow, hup, hl⟩ := quarantineAll_cases run item.sessionUid item.quarantine s
  · rw [session, hd]
    have hb : Between a (settle run a item) { s with
        ledger := { s.ledger with quarantine := s.ledger.quarantine ∪ rowsOf run item.sessionUid item.quarantine }
        lucks  := l } :=
      ⟨h.catalog, h.sessions, h.lower.trans Finset.subset_union_left, hupper _ subset_rfl⟩
    have hafter {step : Step Handled} (h : Ends a (settle run a item) { s with
        ledger := { s.ledger with quarantine := s.ledger.quarantine ∪ rowsOf run item.sessionUid item.quarantine }
        lucks  := l } step) : Ends a (settle run a item) s step := by
      refine Ends.after ?_ ?_ h
      · rfl
      · exact hl
    refine hafter ?_
    change Ends _ _ _ (match item.outcome with | _ => _)
    cases ho : item.outcome with
    | selected source => exact importSession_between hs hp hb Finset.subset_union_right ho
    | quarantined     => exact .done _ _ (.idle (by simp only [settle, ho]) hb Finset.subset_union_right) rfl id
    | missing         => exact .done _ _ (.idle (by simp only [settle, ho]) hb Finset.subset_union_right) rfl id
  · rw [session, hd]
    exact .halt _ _ (by simp) ⟨h.catalog, h.sessions, h.lower.trans hlow, hupper q hup⟩ rfl hl

end Sessions

end Backfill
