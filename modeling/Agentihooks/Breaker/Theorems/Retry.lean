import Mathlib.Algebra.Ring.Parity
import Agentihooks.Breaker.Retry

-- The breaker counts the failures of an operation and blocks every other call, as long as Redis answers with what memory
-- holds, no failure without a fingerprint repeats another, and the error does not change at the limit.

namespace RetryBreaker

variable {alphabet : Alphabet} {breakerMax hardMax : ℕ} {s : State} {es : List Event} {e : Event} {key : Key}
variable {payload : Payload} {answers : Answers} {sessionId operation : String}

section Streak

-- The failures with one fingerprint since the last success or other error, and the checks since they reached the limit.
structure Streak where
  count       : ℕ
  fingerprint : String
  checks      : ℕ
  deriving DecidableEq

def Streak.fresh : Streak :=
  ⟨0, "", 0⟩

variable (alphabet hardMax key)

-- What an event tells of the operation.
inductive Told
  | success
  | failure (fingerprint : String)
  | check
  | nothing

def told : Event → Told
  | .post payload _            =>
    if payload.sessionId = "" ∨ ¬ payload.answered ∨ payload.key ≠ key then .nothing
    else match payload.error with
      | none           => .success
      | some errorText => .failure (computeErrorKey alphabet errorText)
  | .pre sessionId operation _ => if sessionId = "" ∨ (sessionId, operation) ≠ key then .nothing else .check

def Streak.next (streak : Streak) : Told → Streak
  | .success             => fresh
  | .failure fingerprint =>
    if 0 < streak.count ∧ streak.fingerprint = fingerprint then { streak with count := streak.count + 1 }
    else ⟨1, fingerprint, 0⟩
  | .check               => if streak.count < hardMax then streak else { streak with checks := streak.checks + 1 }
  | .nothing             => streak

def streak (es : List Event) : Streak :=
  es.foldl (fun streak e => streak.next hardMax (told alphabet key e)) .fresh

end Streak

section Step

-- What memory holds of an operation.
def State.held (s : State) (key : Key) : Record :=
  (s.memory.lookup key).getD .default

-- What counts as another record does.
def Record.Alike (record held : Record) : Prop :=
  record.count = held.count ∧ record.lastErrorKey = held.lastErrorKey ∧ record.blocked = held.blocked

-- Where the read is answered, Redis has no record of the operation or one that counts what memory's does.
def State.Fresh (s : State) (key : Key) (read : Bool) : Prop :=
  read = true → ∀ record, s.redis.lookup key = some record → record.Alike (s.held key)

-- The step does not go where the breaker loses count.
def Keeps (alphabet : Alphabet) (hardMax : ℕ) (s : State) : Event → Prop
  | .post payload answers            => payload.sessionId ≠ "" → payload.answered = true →
    ∀ errorText, payload.error = some errorText →
      let record := s.held payload.key
      let errorKey := computeErrorKey alphabet errorText
      s.Fresh payload.key answers.read ∧ ¬ (0 < record.count ∧ record.lastErrorKey = "" ∧ errorKey = "") ∧
        (errorKey ≠ record.lastErrorKey → record.count < hardMax)
  | .pre sessionId operation answers => sessionId ≠ "" → s.Fresh (sessionId, operation) answers.read

instance {record held : Record} : Decidable (record.Alike held) :=
  inferInstanceAs (Decidable (_ ∧ _ ∧ _))

instance {read : Bool} : Decidable (s.Fresh key read) :=
  decidable_of_iff (read = true → (s.redis.lookup key).all (fun record => record.Alike (s.held key)) = true)
    (by simp only [State.Fresh, Option.all_eq_true, decide_eq_true_eq])

instance : Decidable (Keeps alphabet hardMax s e) :=
  match e with
  | .post payload answers            =>
    decidable_of_iff (payload.sessionId ≠ "" → payload.answered = true → (payload.error.all fun errorText =>
      let record := s.held payload.key
      let errorKey := computeErrorKey alphabet errorText
      s.Fresh payload.key answers.read ∧ ¬ (0 < record.count ∧ record.lastErrorKey = "" ∧ errorKey = "") ∧
        (errorKey ≠ record.lastErrorKey → record.count < hardMax)) = true)
      (by simp only [Keeps, Option.all_eq_true, decide_eq_true_eq])
  | .pre sessionId operation answers =>
    inferInstanceAs (Decidable (sessionId ≠ "" → s.Fresh (sessionId, operation) answers.read))

-- The record stands for the streak.
structure Record.Shows (hardMax : ℕ) (record : Record) (streak : Streak) : Prop where
  count   : record.count = streak.count
  error   : record.lastErrorKey = streak.fingerprint
  blocked : record.blocked = true ↔ Odd streak.checks
  none    : streak.count = 0 → streak.fingerprint = ""
  below   : streak.count < hardMax → streak.checks = 0

-- What is stored has a failure in it.
def State.Counted (s : State) : Prop :=
  ∀ key record, s.redis.lookup key = some record ∨ s.memory.lookup key = some record → 0 < record.count

theorem State.Fresh.getState {read : Bool} (h : s.Fresh key read) :
    (s.getState key read).Alike (s.held key) := by
  rw [State.getState]
  cases read with
  | false => exact ⟨rfl, rfl, rfl⟩
  | true  =>
    rw [if_pos rfl]
    cases hr : s.redis.lookup key with
    | none        => exact ⟨rfl, rfl, rfl⟩
    | some record => exact h rfl record hr

@[simp]
theorem held_setState {record : Record} {written : Bool} : (s.setState key record written).held key = record := by
  simp [State.held, State.setState]

theorem held_setState_of_ne {other : Key} {record : Record} {written : Bool} (h : key ≠ other) :
    (s.setState other record written).held key = s.held key := by
  simp [State.held, State.setState, Finmap.lookup_insert_of_ne _ h]

@[simp]
theorem held_resetState {written : Bool} : (s.resetState key written).held key = .default := by
  simp [State.held, State.resetState]

theorem held_resetState_of_ne {other : Key} {written : Bool} (h : key ≠ other) :
    (s.resetState other written).held key = s.held key := by
  simp [State.held, State.resetState, Finmap.lookup_erase_ne h]

theorem counted_setState {record : Record} {written : Bool} (h : s.Counted) (hr : 0 < record.count) :
    (s.setState key record written).Counted := by
  intro other found hf
  by_cases hk : other = key
  case pos =>
    subst hk
    cases written with
    | false =>
      obtain hf | hf := hf
      · exact h other found (.inl hf)
      · rw [State.setState, Finmap.lookup_insert, Option.some.injEq] at hf
        rwa [← hf]
    | true  =>
      rw [State.setState, if_pos rfl, Finmap.lookup_insert, Finmap.lookup_insert, or_self, Option.some.injEq] at hf
      rwa [← hf]
  case neg =>
    rw [State.setState, Finmap.lookup_insert_of_ne _ hk] at hf
    cases written with
    | false => exact h other found hf
    | true  => exact h other found (by rwa [if_pos rfl, Finmap.lookup_insert_of_ne _ hk] at hf)

theorem counted_resetState {written : Bool} (h : s.Counted) : (s.resetState key written).Counted := by
  intro other found hf
  by_cases hk : other = key
  case pos =>
    subst hk
    rw [State.resetState, Finmap.lookup_erase, or_iff_left nofun] at hf
    cases written with
    | false => exact h other found (.inl hf)
    | true  => simp at hf
  case neg =>
    rw [State.resetState, Finmap.lookup_erase_ne hk] at hf
    cases written with
    | false => exact h other found hf
    | true  => exact h other found (by rwa [if_pos rfl, Finmap.lookup_erase_ne hk] at hf)

-- A success leaves nothing of the operation in memory.
theorem held_of_count_eq_zero {read : Bool} (h : s.Counted) (hz : (s.getState key read).count = 0) :
    s.held key = .default := by
  cases hm : s.memory.lookup key with
  | none        => simp [State.held, hm]
  | some record =>
    have hr := h key record (.inr hm)
    cases hf : (if read then s.redis.lookup key else none) with
    | none       =>
      rw [State.getState, hf, hm] at hz
      exact absurd hz hr.ne'
    | some found =>
      have hs : s.redis.lookup key = some found := by
        split at hf
        · exact hf
        · cases hf
      rw [State.getState, hf] at hz
      exact absurd hz (h key found (.inl hs)).ne'

theorem Record.shows_default : Record.default.Shows hardMax .fresh where
  count   := rfl
  error   := rfl
  blocked := by simp [Record.default, Streak.fresh]
  none _  := rfl
  below _ := rfl

theorem Record.Shows.failed {record held : Record} {streak : Streak} {input errorText : String} (hm : 0 < hardMax)
    (h : held.Shows hardMax streak) (hr : record.Alike held)
    (he : ¬ (0 < held.count ∧ held.lastErrorKey = "" ∧ computeErrorKey alphabet errorText = ""))
    (hl : computeErrorKey alphabet errorText ≠ held.lastErrorKey → held.count < hardMax) :
    (record.failed alphabet input errorText).Shows hardMax
      (streak.next hardMax (.failure (computeErrorKey alphabet errorText))) := by
  obtain ⟨hcount, herror, hblocked⟩ := hr
  rw [h.count, h.error] at he
  rw [h.error, h.count] at hl
  rw [h.count] at hcount
  rw [h.error] at herror
  rw [Record.failed, Streak.next, hcount, herror]
  generalize computeErrorKey alphabet errorText = errorKey at *
  by_cases hs : 0 < streak.count ∧ streak.fingerprint = errorKey
  case pos =>
    have hne : streak.fingerprint ≠ "" := fun hn => he ⟨hs.left, hn, by rw [← hs.right, hn]⟩
    rw [if_pos ⟨hne, hs.right⟩, if_pos hs]
    exact ⟨rfl, hs.right.symm, hblocked ▸ h.blocked, nofun, fun hlt => h.below (Nat.lt_of_succ_lt hlt)⟩
  case neg =>
    have hne : ¬ (streak.fingerprint ≠ "" ∧ streak.fingerprint = errorKey) := fun hn =>
      hs ⟨Nat.pos_of_ne_zero fun hz => hn.left (h.none hz), hn.right⟩
    have hlt : streak.count < hardMax := by
      by_cases hk : errorKey = streak.fingerprint
      case pos => exact lt_of_le_of_lt (not_lt.mp fun hp => hs ⟨hp, hk.symm⟩) hm
      case neg => exact hl hk
    rw [if_neg hne, if_neg hs]
    refine ⟨rfl, rfl, ?_, nofun, fun _ => rfl⟩
    rw [hblocked, h.blocked, h.below hlt]

-- One check at the limit turns the flag.
theorem Record.Shows.checked {record held : Record} {streak : Streak} (h : held.Shows hardMax streak)
    (hr : record.Alike held) (hl : hardMax ≤ record.count) :
    { record with blocked := ! record.blocked }.Shows hardMax (streak.next hardMax .check) := by
  obtain ⟨hcount, herror, hblocked⟩ := hr
  have hle : ¬ streak.count < hardMax := not_lt.mpr (by rwa [hcount, h.count] at hl)
  rw [Streak.next, if_neg hle]
  refine ⟨hcount.trans h.count, herror.trans h.error, ?_, h.none, fun hlt => absurd hlt hle⟩
  rw [Nat.odd_add_one, ← h.blocked, hblocked]
  cases held.blocked <;> simp

theorem step_check (hs : sessionId ≠ "") (hl : hardMax ≤ (s.getState (sessionId, operation) answers.read).count) :
    step alphabet breakerMax hardMax s (.pre sessionId operation answers) =
      let record := s.getState (sessionId, operation) answers.read
      s.setState (sessionId, operation) { record with blocked := ! record.blocked } answers.written := by
  simp only [step, checkHardBlock]
  rw [if_neg hs, if_neg (not_lt.mpr hl)]
  cases (s.getState (sessionId, operation) answers.read).blocked <;> rfl

theorem count_failed_pos {record : Record} {input errorText : String} :
    0 < (record.failed alphabet input errorText).count := by
  simp only [Record.failed]
  split <;> omega

theorem Keeps.shows {streak : Streak} (hm : 0 < hardMax) (hk : Keeps alphabet hardMax s e) (hc : s.Counted)
    (h : (s.held key).Shows hardMax streak) :
    (step alphabet breakerMax hardMax s e).Counted ∧
      ((step alphabet breakerMax hardMax s e).held key).Shows hardMax
        (streak.next hardMax (told alphabet key e)) := by
  cases e with
  | post payload answers =>
    simp only [step, onPostToolResult, told]
    by_cases hn : payload.sessionId = "" ∨ ¬ payload.answered
    case pos =>
      rw [if_pos hn, if_pos (or_assoc.mp (.inl hn))]
      exact ⟨hc, h⟩
    case neg =>
      obtain ⟨hs, ha⟩ := not_or.mp hn
      rw [if_neg hn]
      cases he : payload.error with
      | none =>
        by_cases hz : 0 < (s.getState payload.key answers.read).count
        case pos =>
          simp only [if_pos hz]
          refine ⟨counted_resetState hc, ?_⟩
          by_cases ho : key = payload.key
          case pos =>
            rw [if_neg (by simp [hs, ha, ho] : ¬ (_ ∨ _ ∨ _)), ho, held_resetState]
            exact Record.shows_default
          case neg =>
            rw [if_pos (.inr (.inr (Ne.symm ho)) : _ ∨ _ ∨ payload.key ≠ key), held_resetState_of_ne ho]
            exact h
        case neg =>
          simp only [if_neg hz]
          refine ⟨hc, ?_⟩
          by_cases ho : key = payload.key
          case pos =>
            rw [if_neg (by simp [hs, ha, ho] : ¬ (_ ∨ _ ∨ _)), ho, held_of_count_eq_zero hc (Nat.eq_zero_of_not_pos hz)]
            exact Record.shows_default
          case neg =>
            rw [if_pos (.inr (.inr (Ne.symm ho)) : _ ∨ _ ∨ payload.key ≠ key)]
            exact h
      | some errorText =>
        obtain ⟨hf, hempty, hlimit⟩ := hk hs (not_not.mp ha) errorText he
        refine ⟨counted_setState hc count_failed_pos, ?_⟩
        by_cases ho : key = payload.key
        case pos =>
          subst ho
          rw [if_neg (by simp [hs, ha] : ¬ (_ ∨ _ ∨ _)), held_setState]
          exact h.failed hm hf.getState hempty hlimit
        case neg =>
          rw [if_pos (.inr (.inr (Ne.symm ho)) : _ ∨ _ ∨ payload.key ≠ key), held_setState_of_ne ho]
          exact h
  | pre sessionId operation answers =>
    by_cases hs : sessionId = ""
    case pos =>
      simp only [step, checkHardBlock, told, if_pos hs, if_pos (.inl hs : _ ∨ (sessionId, operation) ≠ key)]
      exact ⟨hc, h⟩
    case neg =>
      have hf := hk hs
      by_cases hl : hardMax ≤ (s.getState (sessionId, operation) answers.read).count
      case pos =>
        rw [step_check hs hl, told]
        refine ⟨counted_setState hc (hm.trans_le hl), ?_⟩
        by_cases ho : key = (sessionId, operation)
        case pos =>
          subst ho
          rw [if_neg (by simp [hs] : ¬ (_ ∨ _)), held_setState]
          exact h.checked hf.getState hl
        case neg =>
          rw [if_pos (.inr (Ne.symm ho)), held_setState_of_ne ho]
          exact h
      case neg =>
        have hlt := not_le.mp hl
        simp only [step, checkHardBlock, if_neg hs, if_pos hlt, told]
        refine ⟨hc, ?_⟩
        by_cases ho : key = (sessionId, operation)
        case pos =>
          subst ho
          rw [hf.getState.left, h.count] at hlt
          rw [if_neg (by simp [hs] : ¬ (_ ∨ _)), Streak.next, if_pos hlt]
          exact h
        case neg =>
          rw [if_pos (.inr (Ne.symm ho))]
          exact h

end Step

section Run

-- What the breaker has of an operation after a run, what it makes of the next check of it, and that a success stays.
structure Counts (alphabet : Alphabet) (hardMax : ℕ) (s : State) (es : List Event) (key : Key) : Prop where
  count   : (s.held key).count = (streak alphabet hardMax key es).count
  read    : ∀ read, s.Fresh key read → (s.getState key read).count = (streak alphabet hardMax key es).count
  blocks  : key.1 ≠ "" → ∀ answers, s.Fresh key answers.read →
    ((checkHardBlock hardMax s key.1 key.2 answers).2.isSome = true ↔
      hardMax ≤ (streak alphabet hardMax key es).count ∧ Even (streak alphabet hardMax key es).checks)
  settled : ∀ before e after, es = before ++ e :: after → told alphabet key e = .success →
    (∀ e' ∈ after, ∀ fingerprint, told alphabet key e' ≠ .failure fingerprint) →
      ∀ read, s.Fresh key read → (s.getState key read).count = 0

theorem streak_concat : streak alphabet hardMax key (es ++ [e]) =
    (streak alphabet hardMax key es).next hardMax (told alphabet key e) := by
  simp [streak]

theorem shows_run (hm : 0 < hardMax) (h : Run.Along (step alphabet breakerMax hardMax) (Keeps alphabet hardMax) init es) :
    (Run.run (step alphabet breakerMax hardMax) init es).Counted ∧
      ((Run.run (step alphabet breakerMax hardMax) init es).held key).Shows hardMax
        (streak alphabet hardMax key es) := by
  induction es using List.reverseRecOn with
  | nil => exact ⟨fun _ _ hf => by cases hf <;> contradiction, Record.shows_default⟩
  | append_singleton es e hi =>
    obtain ⟨hes, he, _⟩ := Run.Along.append.mp h
    obtain ⟨hc, hs⟩ := hi hes
    rw [Run.run_concat, streak_concat]
    exact he.shows hm hc hs

theorem streak_of_success {before after : List Event} (hs : told alphabet key e = .success)
    (ha : ∀ e' ∈ after, ∀ fingerprint, told alphabet key e' ≠ .failure fingerprint) :
    (streak alphabet hardMax key (before ++ e :: after)).count = 0 := by
  induction after using List.reverseRecOn with
  | nil => rw [streak_concat, hs]; rfl
  | append_singleton after e' hi =>
    have hz := hi fun e' he => ha e' (List.mem_append_left _ he)
    have hn := ha e' (List.mem_append_right _ List.mem_cons_self)
    rw [← List.cons_append, ← List.append_assoc, streak_concat]
    cases ht : told alphabet key e' with
    | success             => rfl
    | failure fingerprint => exact absurd ht (hn fingerprint)
    | nothing             => exact hz
    | check               =>
      rw [Streak.next]
      split
      · exact hz
      · exact hz

theorem checkHardBlock_isSome (h : key.1 ≠ "") : (checkHardBlock hardMax s key.1 key.2 answers).2.isSome = true ↔
    hardMax ≤ (s.getState key answers.read).count ∧ ¬ (s.getState key answers.read).blocked = true := by
  simp only [checkHardBlock, Prod.mk.eta, if_neg h]
  by_cases hl : (s.getState key answers.read).count < hardMax
  case pos =>
    rw [if_pos hl]
    exact ⟨nofun, fun h => absurd hl (not_lt.mpr h.left)⟩
  case neg =>
    rw [if_neg hl]
    split <;> simp_all

theorem breaker_counts (hm : 0 < hardMax)
    (h : Run.Along (step alphabet breakerMax hardMax) (Keeps alphabet hardMax) init es) (key : Key) :
    Counts alphabet hardMax (Run.run (step alphabet breakerMax hardMax) init es) es key := by
  obtain ⟨_, hs⟩ := @shows_run _ breakerMax _ _ key hm h
  have hread {read : Bool} (hf : (Run.run (step alphabet breakerMax hardMax) init es).Fresh key read) :=
    hf.getState.left.trans hs.count
  refine ⟨hs.count, fun _ => hread, fun hne answers hf => ?_, fun before e after he ht ha read hf => ?_⟩
  case refine_1 =>
    obtain ⟨_, _, hblocked⟩ := hf.getState
    rw [checkHardBlock_isSome hne, hread hf, hblocked, hs.blocked, Nat.not_odd_iff_even]
  case refine_2 =>
    subst he
    rw [hread hf, streak_of_success ht ha]

-- The alphabet of English text.
def ascii : Alphabet where
  lower text := .ofList (text.toList.map Char.toLower)
  word c     := c.isAlphanum || c = '_'
  digit c    := c.isDigit

example : computeErrorKey ascii "Error at line 42 in /foo/bar.py:  0x1F  " = "error at line in :" := by
  decide +kernel

def curl : Key :=
  ("session", "bash:curl")

def fails (error : String) : Event :=
  .post ⟨curl.1, curl.2, "curl", true, some error⟩ ⟨true, true⟩

def succeeds (written : Bool) : Event :=
  .post ⟨curl.1, curl.2, "curl", true, none⟩ ⟨true, written⟩

def checks (read : Bool) : Event :=
  .pre curl.1 curl.2 ⟨read, true⟩

-- Two failures, a block, a trial, a third failure while Redis does not answer, and a success.
def retried : List Event :=
  [fails "refused", fails "Refused 7", checks true, checks false, fails "refused", succeeds true]

theorem breaker_counts_retried : Counts ascii 2 (Run.run (step ascii 1 2) init retried) retried curl :=
  breaker_counts (by decide) (by decide +kernel) curl

-- The error has no fingerprint.
def numbered : List Event :=
  [fails "404", fails "404"]

-- After a block, calls in flight fail with another error.
def changed : List Event :=
  [fails "refused", fails "refused", checks true, fails "timeout", fails "timeout"]

-- The delete of a success does not reach Redis.
def undone : List Event :=
  [fails "refused", succeeds false]

theorem breaker_loses :
    ((streak ascii 2 curl numbered).count = 2 ∧ ((Run.run (step ascii 1 2) init numbered).held curl).count = 1) ∧
      (streak ascii 2 curl changed = ⟨2, "timeout", 0⟩ ∧
        (checkHardBlock 2 (Run.run (step ascii 1 2) init changed) curl.1 curl.2 ⟨true, true⟩).2.isNone = true) ∧
      (streak ascii 2 curl undone).count = 0 ∧
        ((Run.run (step ascii 1 2) init undone).getState curl true).count = 1 := by
  decide +kernel

end Run

end RetryBreaker
