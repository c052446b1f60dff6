import Agentihooks.Inbox.Histories

namespace Histories

-- Who a state entry says took the item.
def Entry.taken : Entry → Option String
  | .state new by_ _ _ _ => if new = .delivered ∨ new = .read then some by_ else none
  | .event _ _ _ _       => none

def Entry.isNote : Entry → Bool
  | .state _ _ _ _ _ => false
  | .event _ _ _ _   => true

-- The `by` of the latest delivered or read state entry, and the empty string where there is none.
def lastTaken (history : List Entry) : String :=
  ((history.filterMap Entry.taken).getLast?).getD ""

def sinceTaken (history : List Entry) : List Entry :=
  history.rtakeWhile fun e => e.taken.isNone

-- No note stands after the latest delivered or read entry, and none at all where there is no such entry.
def Plain (history : List Entry) : Prop :=
  ∀ e ∈ sinceTaken history, e.isNote = false

instance (history : List Entry) : Decidable (Plain history) :=
  inferInstanceAs (Decidable (∀ _ ∈ _, _))

-- The lookup that the operations are for.
def latest (history : List Entry) : Except Refusal String :=
  .ok (lastTaken history)

section Lookup

variable {history : List Entry} {e : Entry}

theorem taken_of_note (h : e.isNote) : e.taken = none := by
  cases e
  case state => cases h
  case event => rfl

theorem lastTaken_concat : lastTaken (history ++ [e]) = e.taken.getD (lastTaken history) := by
  cases h : e.taken <;> simp [lastTaken, h]

theorem sinceTaken_taken (h : e.taken.isSome) : sinceTaken (history ++ [e]) = [] := by
  rw [sinceTaken, List.rtakeWhile_concat_neg]
  simpa [Option.isSome_iff_ne_none] using h

theorem sinceTaken_other (h : e.taken = none) : sinceTaken (history ++ [e]) = sinceTaken history ++ [e] := by
  rw [sinceTaken, List.rtakeWhile_concat_pos]
  case h => simp [h]
  rfl

theorem receiver_concat :
    receiver (history ++ [e]) = if e.isNote then .error .noState else (e.taken.map .ok).getD (receiver history) := by
  rw [receiver, List.reverse_concat]
  cases e
  case event => rfl
  case state state by_ _ _ _ =>
    simp only [takenBy, Entry.isNote, Entry.taken]
    split_ifs <;> simp_all [receiver]

-- The lookup finds the one who took the item, or it meets a note first.
theorem receiver_eq : receiver history = if Plain history then latest history else .error .noState := by
  induction history using List.reverseRecOn
  case nil => rfl
  case append_singleton history e hi =>
    rw [receiver_concat]
    cases ht : e.taken
    case some by_ =>
      have hn : ¬ e.isNote := fun hn => by simp [taken_of_note hn] at ht
      have hp : Plain (history ++ [e]) := by simp [Plain, sinceTaken_taken, ht]
      rw [if_neg hn, if_pos hp, latest, lastTaken_concat, ht]
      rfl
    case none =>
      have hl : latest (history ++ [e]) = latest history := by rw [latest, latest, lastTaken_concat, ht]; rfl
      have hp : Plain (history ++ [e]) ↔ Plain history ∧ e.isNote = false := by
        simp [Plain, sinceTaken_other ht, or_imp, forall_and]
      cases hn : e.isNote
      case false => simp [hp, hn, hl, hi]
      case true  => simp [hp, hn]

theorem receiver_latest_iff : receiver history = latest history ↔ Plain history := by
  rw [receiver_eq]
  by_cases h : Plain history <;> simp [h, latest]

end Lookup

variable {World : Type} [DecidableEq World] {s : Store World} {k : Key World} {masterOf : String → String}

-- The call gets as far as looking up who took the item.
def Redirect.Looks (r : Redirect World) (row : Row) : Prop :=
  ¬ row.state.closed ∧ (r.expectedAddress = "" ∨ row.address = r.expectedAddress) ∧
    ∃ name, r.expected = some name ∧ name ≠ ""

def PoolReturn.Looks (r : PoolReturn) (row : Row) : Prop :=
  ¬ row.state.closed ∧ row.address = r.holder ∧ row.holder = some r.holder ∧ r.expected ≠ ""

def Call.Looks : Call World → Option Row → Prop
  | .redirect r, row     => ∃ found, row = some found ∧ r.Looks found
  | .returnToPool r, row => ∃ found, row = some found ∧ r.Looks found
  | .taker, _            => True
  | _, _                 => False

theorem departs_latest {expected : String} {history : List Entry} (h : expected ≠ "" → Plain history) :
    departs receiver expected history = departs latest expected history := by
  unfold departs
  split_ifs with he
  case pos => rfl
  case neg => rw [receiver_eq, if_pos (h he)]

theorem departs_noted {expected : String} {history : List Entry} (he : expected ≠ "") (h : ¬ Plain history) :
    departs receiver expected history = .error .noState := by
  rw [departs, if_neg he, receiver_eq, if_neg h]
  rfl

theorem departs_total (expected : String) (history : List Entry) :
    ∃ found, departs latest expected history = .ok found := by
  unfold departs
  split_ifs
  all_goals exact ⟨_, rfl⟩

section Redirect

variable {r : Redirect World}

theorem redirect_latest (h : ∀ row, (s k).row = some row → r.Looks row → Plain (s k).history) :
    redirect s k receiver r = redirect s k latest r := by
  unfold redirect
  cases hr : (s k).row
  case none     => rfl
  case some row =>
    dsimp only
    by_cases hg : row.state.closed ∨ (r.expectedAddress ≠ "" ∧ row.address ≠ r.expectedAddress)
    case pos => rw [if_pos hg, if_pos hg]
    case neg =>
      have hd : departs receiver (r.expected.getD "") (s k).history = departs latest (r.expected.getD "") (s k).history := by
        refine departs_latest fun he => h row hr ?_
        cases hx : r.expected
        case none      => exact absurd (by rw [hx]; rfl) he
        case some name => exact ⟨by tauto, by tauto, name, hx, by rwa [hx] at he⟩
      rw [hd]

theorem redirect_noted {row : Row} (hr : (s k).row = some row) (hl : r.Looks row) (h : ¬ Plain (s k).history) :
    redirect s k receiver r = .error .noState := by
  obtain ⟨hc, ha, name, he, hn⟩ := hl
  have hg : ¬ (row.state.closed ∨ (r.expectedAddress ≠ "" ∧ row.address ≠ r.expectedAddress)) := by tauto
  have hx : ¬ (r.expected = none ∧ row.state ≠ .pending) := by simp [he]
  have hd : departs receiver (r.expected.getD "") (s k).history = .error .noState := departs_noted (by rwa [he]) h
  simp only [redirect, hr, if_neg hg, if_neg hx, hd]

theorem redirect_answers : redirect s k latest r ≠ .error .noState := by
  obtain ⟨found, hd⟩ := departs_total (r.expected.getD "") (s k).history
  unfold redirect
  cases (s k).row
  case none     => simp
  case some row =>
    dsimp only
    rw [hd]
    cases found <;> split_ifs <;> simp

end Redirect

section PoolReturn

variable {r : PoolReturn}

theorem returnToPool_latest (h : ∀ row, (s k).row = some row → r.Looks row → Plain (s k).history) :
    returnToPool s k masterOf receiver r = returnToPool s k masterOf latest r := by
  unfold returnToPool
  cases hr : (s k).row
  case none     => rfl
  case some row =>
    dsimp only
    by_cases hg : row.state.closed ∨ ¬ (row.address = r.holder ∧ row.holder = some r.holder)
    case pos => rw [if_pos hg, if_pos hg]
    case neg =>
      have hd : departs receiver r.expected (s k).history = departs latest r.expected (s k).history :=
        departs_latest fun he => h row hr ⟨by tauto, by tauto, by tauto, he⟩
      rw [hd]

theorem returnToPool_noted {row : Row} (hr : (s k).row = some row) (hl : r.Looks row) (h : ¬ Plain (s k).history) :
    returnToPool s k masterOf receiver r = .error .noState := by
  obtain ⟨hc, ha, hh, he⟩ := hl
  have hg : ¬ (row.state.closed ∨ ¬ (row.address = r.holder ∧ row.holder = some r.holder)) := by tauto
  have hx : ¬ (row.state ≠ .pending ∧ r.expected = "" ∧ ¬ r.reclaimable) := by tauto
  simp only [returnToPool, hr, if_neg hg, if_neg hx, departs_noted he h]

theorem returnToPool_answers : returnToPool s k masterOf latest r ≠ .error .noState := by
  obtain ⟨found, hd⟩ := departs_total r.expected (s k).history
  unfold returnToPool
  cases (s k).row
  case none     => simp
  case some row =>
    dsimp only
    rw [hd]
    cases found <;> split_ifs <;> simp

end PoolReturn

theorem taker_latest (h : Plain (s k).history) : taker s k receiver = taker s k latest := by
  rw [taker, taker, receiver_eq, if_pos h]

theorem taker_noted (h : ¬ Plain (s k).history) : taker s k receiver = .error .noState := by
  rw [taker, receiver_eq, if_neg h]

-- A call that looks up who took the item.
def Call.Asks : Call World → Prop
  | .redirect _ | .returnToPool _ | .taker => True
  | _                                      => False

variable {call : Call World}

theorem answer_latest (h : call.Looks (s k).row → Plain (s k).history) :
    answer masterOf receiver s k call = answer masterOf latest s k call := by
  cases call
  case redirect r     => exact redirect_latest fun row hr hl => h ⟨row, hr, hl⟩
  case returnToPool r => exact returnToPool_latest fun row hr hl => h ⟨row, hr, hl⟩
  case taker          => exact taker_latest (h trivial)
  all_goals rfl

theorem answer_noted (hl : call.Looks (s k).row) (h : ¬ Plain (s k).history) :
    answer masterOf receiver s k call = .error .noState := by
  cases call
  case redirect r =>
    obtain ⟨row, hr, hl⟩ := hl
    exact redirect_noted hr hl h
  case returnToPool r =>
    obtain ⟨row, hr, hl⟩ := hl
    exact returnToPool_noted hr hl h
  case taker => exact taker_noted h
  all_goals cases hl

theorem answer_answers (h : call.Asks) : answer masterOf latest s k call ≠ .error .noState := by
  cases call
  case redirect r     => exact redirect_answers
  case returnToPool r => exact returnToPool_answers
  case taker          => simp [answer, taker, latest]
  all_goals cases h

-- After every sequence of calls, a redirect, a withdrawal, a return to the pool or a settlement's lookup goes by who
-- took the item last and misses no state exactly when, if it looks at the history, no note stands after that entry.
theorem departing_iff (masterOf : String → String) (calls : List (Key World × Call World)) (k : Key World)
    (call : Call World) (ha : call.Asks) :
    let s := Run.run (step masterOf) Store.empty calls
    (answer masterOf receiver s k call ≠ .error .noState ∧
        answer masterOf receiver s k call = answer masterOf latest s k call) ↔
      (call.Looks (s k).row → Plain (s k).history) := by
  intro s
  constructor
  case mp =>
    intro h hl
    by_contra hp
    exact h.left (answer_noted hl hp)
  case mpr =>
    intro h
    rw [answer_latest h]
    exact ⟨answer_answers ha, rfl⟩

def woken : Call Unit := .note "woken" "swarm" "prompted mason to read its inbox" 2 true

def delivered : Call Unit := .move "mason" .delivered "" (some [.pending]) ⟨true, false, false, "s1", 1⟩

-- An item that was delivered and then woken for, as the exit of its receiver asks for it back.
theorem departing_iff_delivered :
    let calls := [(((), "m1"), .send "ada" "mason" false 0), (((), "m1"), delivered)]
    let s := Run.run (step id) Store.empty calls
    let call := Call.redirect ⟨"swarm", "", "mason left", "mason", some "mason", (), 3⟩
    (answer id receiver s ((), "m1") call ≠ .error .noState ∧
        answer id receiver s ((), "m1") call = answer id latest s ((), "m1") call) ↔
      (call.Looks (s ((), "m1")).row → Plain (s ((), "m1")).history) :=
  departing_iff id _ _ _ trivial

-- A note before any delivery, and a note after one: the item keeps its state, and whoever asks misses a state.
theorem noted_departures_raise :
    let sent : Key Unit × Call Unit := (((), "m1"), .send "ada" "mason" false 0)
    let pending := Run.run (step id) Store.empty [sent, (((), "m1"), woken)]
    let taken := Run.run (step id) Store.empty [sent, (((), "m1"), delivered), (((), "m1"), woken)]
    answer id receiver pending ((), "m1") (.redirect ⟨"swarm", "", "mason left", "mason", some "mason", (), 3⟩) =
        .error .noState ∧
      answer id receiver taken ((), "m1") .taker = .error .noState ∧
      lastTaken (taken ((), "m1")).history = "mason" :=
  ⟨rfl, rfl, by decide +kernel⟩

end Histories
