import Agentihooks.Fleet.Registry

-- What the registry keeps over any run of calls.

namespace Fleet

variable {site : Site} {s t : Registry} {c : Call} {r r' record existing : Session} {key k seat : String} {g : ℕ}

-- What a transaction on a stored record leaves of it.
structure Amends (r r' : Session) : Prop where
  same   : r' = { r with state := r'.state, heartbeatMs := r'.heartbeatMs }
  closed : r.state = .closed → r'.state = .closed

-- A registration replaces a closed record by one of the same generation.
def Reopens (site : Site) (s : Registry) : Call → Prop
  | .register session name found now =>
    ∃ seat existing, seatOf site session name found = .ok seat ∧ s.sessions (session.key site) = some existing ∧
      existing.state = .closed ∧ existing.generation = session.generation ∧ existing.seat = seat ∧
      existing.identity ≠ (recordOf session name seat now).identity ∧ ¬s.Refuses (recordOf session name seat now)
  | _ => False

inductive Effect (site : Site) (s : Registry) (c : Call) : Registry → Prop
  | refl : Effect site s c s
  | write (record : Session) (hr : ∀ existing ∈ s.sessions (record.key site), replaceable existing record = .ok true)
      (hs : ¬s.Refuses record) (hl : record.state = .live)
      (hc : ∀ existing ∈ s.sessions (record.key site), existing.state = .closed →
        existing.generation = record.generation → Reopens site s c) :
      Effect site s c (s.write site record)
  | update (change : String → Session → Option Session)
      (h : ∀ key r r', s.sessions key = some r → change key r = some r' → Amends r r') :
      Effect site s c (s.update change)

theorem replaceable_ok (h : replaceable existing record = .ok true) :
    existing.identity ≠ record.identity ∧ existing.generation ≤ record.generation ∧
      (existing.generation = record.generation → existing.seat = record.seat) := by
  unfold replaceable at h
  split at h
  case isTrue => split at h <;> cases h
  case isFalse hne =>
    split at h
    case isTrue => cases h
    case isFalse hle =>
      split at h
      case isTrue => cases h
      case isFalse hc =>
        refine ⟨hne, Nat.le_of_not_lt hle, fun he => ?_⟩
        by_contra hs
        exact hc ⟨he, .inr hs⟩

theorem enter_ok (h : s.enter site record = .ok t) : ¬s.Refuses record ∧ t = s.write site record := by
  unfold Registry.enter at h
  split at h
  case isTrue     => cases h
  case isFalse hs => exact ⟨hs, (Except.ok.inj h).symm⟩

theorem effect_register {session : Session} {name : String} {found : Option Registration} {now : ℤ}
    (h : s.register site session name found now = .ok t) : Effect site s (.register session name found now) t := by
  cases hseat : seatOf site session name found
  case error e => simp [Registry.register, hseat, bind, Except.bind] at h
  case ok seat =>
    have h : s.admitted site (recordOf session name seat now) = .ok t := by
      simpa [Registry.register, hseat, bind, Except.bind] using h
    unfold Registry.admitted at h
    split at h
    case h_1 hk =>
      obtain ⟨hs, rfl⟩ := enter_ok h
      refine .write _ (fun existing he => ?_) hs rfl fun existing he => ?_
      · rw [hk] at he; cases he
      · rw [hk] at he; cases he
    case h_2 existing hk =>
      cases hr : replaceable existing (recordOf session name seat now)
      case error e => simp [hr, bind, Except.bind] at h
      case ok replaces =>
        cases replaces
        case false =>
          obtain rfl : s = t := by simpa [hr, bind, Except.bind, pure, Except.pure] using h
          exact .refl
        case true =>
          have h : s.enter site (recordOf session name seat now) = .ok t := by
            simpa [hr, bind, Except.bind] using h
          obtain ⟨hs, rfl⟩ := enter_ok h
          refine .write _ (fun other he => ?_) hs rfl fun other he hclosed hg => ?_
          · rw [hk] at he
            cases he
            exact hr
          · rw [hk] at he
            cases he
            obtain ⟨hne, -, hsame⟩ := replaceable_ok hr
            exact ⟨seat, existing, hseat, hk, hclosed, hg, hsame hg, hne, hs⟩

theorem one_ok {read : Session} {found : Option Registration} {change : Session → Except SwarmError Session}
    (h : s.one site key read found change = .ok t) :
    ∃ record changed, s.sessions key = some record ∧ change record = .ok changed ∧
      t = s.update fun k _ => if k = key then some changed else none := by
  cases hg : granted site found read.executionId read.generation
  case error e => simp [Registry.one, hg, bind, Except.bind] at h
  case ok grant =>
    simp only [Registry.one, hg, bind, Except.bind] at h
    split at h
    case h_1 => cases h
    case h_2 record hk =>
      split at h
      case isTrue  => cases h
      case isFalse =>
        cases hr : change record
        case error e => simp [hr] at h
        case ok changed =>
          rw [hr] at h
          cases h
          exact ⟨record, changed, hk, hr, rfl⟩

theorem effect_one {read : Session} {found : Option Registration} {change : Session → Except SwarmError Session}
    (hc : ∀ r r', change r = .ok r' → Amends r r') (h : s.one site key read found change = .ok t) :
    Effect site s c t := by
  obtain ⟨record, changed, hk, hr, rfl⟩ := one_ok h
  refine .update _ fun k r r' hr' he => ?_
  split at he
  case isFalse => cases he
  case isTrue hkey =>
    cases he
    rw [hkey, hk] at hr'
    cases hr'
    exact hc _ _ hr

theorem amends_suspect (h : r.state = .live) : Amends r { r with state := .suspect } :=
  ⟨rfl, fun hc => by rw [h] at hc; cases hc⟩

theorem amends_beat {now : ℤ} (h : s.beat now r = .ok r') : Amends r r' := by
  unfold Registry.beat at h
  split at h
  case isTrue => cases h
  case isFalse hs =>
    have hc : r.state ≠ .closed := fun hc => hs (by simp [hc])
    split at h
    case h_2 =>
      cases h
      exact ⟨rfl, fun hr => absurd hr hc⟩
    case h_1 =>
      split at h
      case isFalse => cases h
      case isTrue =>
        cases h
        exact ⟨rfl, fun hr => absurd hr hc⟩

theorem effect_step : Effect site s c (step site s c) := by
  unfold step
  cases h : s.call site c
  case error e => exact .refl
  case ok t =>
    dsimp only
    cases c
    case register session name found now => exact effect_register h
    case heartbeat => exact effect_one (fun _ _ => amends_beat) h
    case close =>
      refine effect_one (fun r r' hr => ?_) h
      cases hr
      exact ⟨rfl, fun _ => rfl⟩
    case observe scope table =>
      cases h
      unfold Registry.observe
      split
      case isTrue  => exact .refl
      case isFalse =>
        refine .update _ fun k r r' _ he => ?_
        split at he
        case isTrue => cases he
        case isFalse hl =>
          split at he
          case isTrue => cases he
          case isFalse =>
            cases he
            exact amends_suspect (by simpa using (not_or.mp hl).right)
    case sweep now =>
      cases h
      refine .update _ fun k r r' _ he => ?_
      split at he
      case isFalse => cases he
      case isTrue hl =>
        cases he
        exact amends_suspect hl.left

-- The record a key holds after a step, and where it comes from.
theorem Effect.sessions_update {change : String → Session → Option Session}
    (h : ∀ key r r', s.sessions key = some r → change key r = some r' → Amends r r')
    (hk : (s.update change).sessions key = some r') : ∃ r, s.sessions key = some r ∧ (r' = r ∨ Amends r r') := by
  obtain ⟨r, hr, rfl⟩ := Option.map_eq_some_iff.mp hk
  refine ⟨r, hr, ?_⟩
  cases hc : change key r
  case none        => exact .inl rfl
  case some record => exact .inr (h key r record hr hc)

-- The seat's row is at this generation's holder or past it, and no record of this generation names another.
structure Once (seat : String) (g : ℕ) (executionId : String) (s : Registry) : Prop where
  row     : ∃ held, s.seats seat = some held ∧ g ≤ held.generation ∧ (held.generation = g → held.executionId = executionId)
  records : ∀ k r, s.sessions k = some r → r.seat = seat → r.generation = g → r.executionId = executionId

theorem sessions_write : (s.write site record).sessions =
    Function.update s.sessions (record.key site) (some record) := by
  unfold Registry.write
  split <;> rfl

theorem seats_write (h : record.seat ≠ "") : (s.write site record).seats =
    Function.update s.seats record.seat (some ⟨record.executionId, record.generation, record.key site⟩) := by
  unfold Registry.write
  rw [if_neg h]
  rfl

-- Who may write a record for a held seat: the holder itself, or a later generation.
theorem holder_or_later {held : Seat} (h : ¬s.Refuses record) (hne : record.seat ≠ "")
    (hs : s.seats record.seat = some held) : heldBy held record ∨ held.generation < record.generation := by
  by_contra hc
  obtain ⟨hh, hg⟩ := not_or.mp hc
  exact h ⟨held, by simpa [Registry.seat?, hne] using hs, hh, Nat.le_of_not_lt hg⟩

theorem Once.effect {executionId : String} (h : Once seat g executionId s) (hne : seat ≠ "") (he : Effect site s c t) :
    Once seat g executionId t := by
  obtain ⟨held, hheld, hle, hex⟩ := h.row
  cases he
  case refl => exact h
  case update change hc =>
    refine ⟨h.row, fun k r' hr' hs hg => ?_⟩
    obtain ⟨r, hr, heq⟩ := Effect.sessions_update hc hr'
    cases heq with
    | inl heq => exact h.records k r' (heq ▸ hr) hs hg
    | inr ha =>
      have hsame := ha.same
      rw [hsame] at hs hg ⊢
      exact h.records k r hr hs hg
  case write record hr hs hl hc =>
    by_cases hseat : record.seat = seat
    case neg =>
      refine ⟨?_, fun k r hk hrs hg => ?_⟩
      · refine ⟨held, ?_, hle, hex⟩
        by_cases hempty : record.seat = ""
        case pos => simpa [Registry.write, hempty, Registry.put] using hheld
        case neg => rw [seats_write hempty, Function.update_of_ne (Ne.symm hseat), hheld]
      · rw [sessions_write] at hk
        by_cases hkey : k = record.key site
        case pos =>
          rw [hkey, Function.update_self] at hk
          cases hk
          exact absurd hrs hseat
        case neg => exact h.records k r (by rwa [Function.update_of_ne hkey] at hk) hrs hg
    case pos =>
      subst hseat
      have hcur := holder_or_later hs hne hheld
      have hsame (hg : record.generation = g) : record.executionId = executionId := by
        cases hcur with
        | inl hh =>
          have hh := Prod.mk.inj hh
          exact hh.right ▸ hex (hh.left.trans hg)
        | inr hlt => omega
      refine ⟨⟨_, by rw [seats_write hne, Function.update_self], ?_, hsame⟩, fun k r hk hrs hg => ?_⟩
      · cases hcur with
        | inl hh =>
          have hh := Prod.mk.inj hh
          exact hh.left ▸ hle
        | inr hlt => exact hle.trans hlt.le
      · rw [sessions_write] at hk
        by_cases hkey : k = record.key site
        case pos =>
          rw [hkey, Function.update_self] at hk
          cases hk
          exact hsame hg
        case neg => exact h.records k r (by rwa [Function.update_of_ne hkey] at hk) hrs hg

-- Every stored record's seat has a row, at the record's holder or past it.
structure Held (s : Registry) : Prop where
  nameless : s.seats "" = none
  once     : ∀ k r, s.sessions k = some r → r.seat ≠ "" → Once r.seat r.generation r.executionId s

theorem Held.empty : Held .empty where
  nameless := rfl
  once     := fun _ _ h => by cases h

theorem once_write (h : Held s) (hs : ¬s.Refuses record) (hne : record.seat ≠ "") :
    Once record.seat record.generation record.executionId (s.write site record) := by
  refine ⟨⟨_, by rw [seats_write hne, Function.update_self], le_rfl, fun _ => rfl⟩, fun k r hk hrs hg => ?_⟩
  rw [sessions_write] at hk
  by_cases hkey : k = record.key site
  case pos =>
    rw [hkey, Function.update_self] at hk
    cases hk
    rfl
  case neg =>
    have ho := h.once k r (by rwa [Function.update_of_ne hkey] at hk) (hrs ▸ hne)
    obtain ⟨held, hheld, hle, hex⟩ := ho.row
    cases holder_or_later hs hne (hrs ▸ hheld) with
    | inl hh =>
      have hh := Prod.mk.inj hh
      exact (hex (hh.left.trans hg.symm)).symm.trans hh.right
    | inr hlt => omega

theorem Held.effect (h : Held s) (he : Effect site s c t) : Held t := by
  have hold (k : String) (r : Session) (hk : s.sessions k = some r) (hne : r.seat ≠ "") :
      Once r.seat r.generation r.executionId t := (h.once k r hk hne).effect hne he
  cases he
  case refl => exact h
  case update change hc =>
    refine ⟨h.nameless, fun k r' hk hne => ?_⟩
    obtain ⟨r, hr, heq⟩ := Effect.sessions_update hc hk
    cases heq with
    | inl heq => exact hold k r' (heq ▸ hr) hne
    | inr ha =>
      have hsame := ha.same
      rw [hsame] at hne ⊢
      exact hold k r hr hne
  case write record hr hs hl hc =>
    constructor
    case nameless =>
      by_cases hne : record.seat = ""
      case pos => simpa [Registry.write, hne, Registry.put] using h.nameless
      case neg => rw [seats_write hne, Function.update_of_ne (Ne.symm hne), h.nameless]
    case once =>
      intro k r hk hne
      by_cases hkey : k = record.key site
      case pos =>
        rw [sessions_write, hkey, Function.update_self] at hk
        cases hk
        exact once_write h hs hne
      case neg => exact hold k r (by rwa [sessions_write, Function.update_of_ne hkey] at hk) hne

theorem Held.run {es : List Call} : Held (Run.run (step site) .empty es) :=
  Run.Along.invariant (P := fun _ _ => True) (fun _ _ h _ => h.effect effect_step) .empty (.of_forall fun _ _ => trivial)

theorem Held.once_row {held : Seat} (h : Held s) (hs : s.seats seat = some held) :
    seat ≠ "" ∧ Once seat held.generation held.executionId s := by
  have hne : seat ≠ "" := by
    intro hc
    rw [hc, h.nameless] at hs
    cases hs
  refine ⟨hne, ⟨held, hs, le_rfl, fun _ => rfl⟩, fun k r hk hrs hg => ?_⟩
  obtain ⟨held', hheld, -, hex⟩ := (h.once k r hk (hrs ▸ hne)).row
  obtain rfl := Option.some.inj (hs.symm.trans (hrs ▸ hheld))
  exact (hex hg.symm).symm

theorem Once.run {executionId : String} {es : List Call} (h : Once seat g executionId s) (hne : seat ≠ "") :
    Once seat g executionId (Run.run (step site) s es) :=
  Run.Along.invariant (P := fun _ _ => True) (fun _ _ h _ => h.effect hne effect_step) h (.of_forall fun _ _ => trivial)

-- A key's record stays past a closed generation, or closed.
def Ended (k : String) (g : ℕ) (s : Registry) : Prop :=
  ∃ r, s.sessions k = some r ∧ g ≤ r.generation ∧ (r.generation = g → r.state = .closed)

theorem Ended.effect (h : Ended k g s) (hn : ¬Reopens site s c) (he : Effect site s c t) : Ended k g t := by
  obtain ⟨r, hr, hle, hclosed⟩ := h
  cases he
  case refl => exact ⟨r, hr, hle, hclosed⟩
  case update change hc =>
    cases hch : change k r
    case none => exact ⟨r, by simp [Registry.update, hr, hch], hle, hclosed⟩
    case some r' =>
      have ha := hc k r r' hr hch
      have hg : r'.generation = r.generation := by rw [ha.same]
      exact ⟨r', by simp [Registry.update, hr, hch], hg ▸ hle, fun he => ha.closed (hclosed (hg ▸ he))⟩
  case write record hrep hs hl hc =>
    by_cases hkey : k = record.key site
    case neg => exact ⟨r, by rw [sessions_write, Function.update_of_ne hkey, hr], hle, hclosed⟩
    case pos =>
      rw [hkey] at hr
      have hgen := (replaceable_ok (hrep r hr)).right.left
      refine ⟨record, by rw [sessions_write, hkey, Function.update_self], hle.trans hgen, fun he => ?_⟩
      have hg : r.generation = g := le_antisymm (he ▸ hgen) hle
      exact absurd (hc r hr (hclosed hg) (hg.trans he.symm)) hn

-- A reopened record is live under the closed generation.
theorem live_of_reopens (h : Reopens site s c) : ∃ k r r', s.sessions k = some r ∧ r.state = .closed ∧
    (step site s c).sessions k = some r' ∧ r'.generation = r.generation ∧ r'.state = .live := by
  cases c
  case register session name found now =>
    obtain ⟨seat, existing, hseat, hk, hclosed, hg, hsame, hne, hs⟩ := h
    have hr : replaceable existing (recordOf session name seat now) = .ok true := by
      have hle : ¬(recordOf session name seat now).generation < existing.generation := hg.symm ▸ lt_irrefl _
      have hfree : ¬(existing.generation = (recordOf session name seat now).generation ∧
          (existing.state = .live ∨ existing.seat ≠ (recordOf session name seat now).seat)) := by
        simp [hclosed, hsame, recordOf]
      rw [replaceable, if_neg hne, if_neg hle, if_neg hfree]
    have ha : s.admitted site (recordOf session name seat now) = .ok (s.write site (recordOf session name seat now)) := by
      have hk : s.sessions ((recordOf session name seat now).key site) = some existing := hk
      simp [Registry.admitted, hk, hr, Registry.enter, hs, bind, Except.bind]
    have hst : step site s (.register session name found now) = s.write site (recordOf session name seat now) := by
      simp [step, Registry.call, Registry.register, hseat, ha, bind, Except.bind]
    refine ⟨session.key site, existing, recordOf session name seat now, hk, hclosed, ?_, hg.symm, rfl⟩
    rw [hst, sessions_write]
    exact Function.update_self _ _ _
  all_goals exact absurd h id

-- In one step, closed records stay closed under their generation exactly when none is reopened.
theorem closed_stays_iff : (∀ k r r', s.sessions k = some r → r.state = .closed →
    (step site s c).sessions k = some r' → r'.generation = r.generation → r'.state = .closed) ↔ ¬Reopens site s c := by
  constructor
  case mp =>
    intro h hc
    obtain ⟨k, r, r', hr, hclosed, hr', hg, hlive⟩ := live_of_reopens hc
    have hc := h k r r' hr hclosed hr' hg
    rw [hlive] at hc
    cases hc
  case mpr =>
    intro hn k r r' hr hclosed hr' hg
    obtain ⟨x, hx, -, hend⟩ := Ended.effect ⟨r, hr, le_rfl, fun _ => hclosed⟩ hn effect_step
    obtain rfl := Option.some.inj (hx.symm.trans hr')
    exact hend hg

-- A suspect record is live again only while its execution holds its seat.
theorem revived_held {scope : Scope} {sessionId : String} {read : Session} {found : Option Registration} {now : ℤ}
    (h : Held s) (hr : s.sessions k = some r) (hs : r.state = .suspect) (hseat : r.seat ≠ "")
    (hr' : (step site s (.heartbeat scope sessionId read found now)).sessions k = some r') (hl : r'.state = .live) :
    ∃ held, s.seats r.seat = some held ∧ heldBy held r := by
  cases hb : s.call site (.heartbeat scope sessionId read found now)
  case error e =>
    rw [step, hb, hr] at hr'
    cases hr'
    rw [hs] at hl
    cases hl
  case ok t =>
    rw [step, hb] at hr'
    obtain ⟨record, changed, hk, hc, rfl⟩ := one_ok hb
    by_cases hkey : k = site.sessionKey scope sessionId
    case neg =>
      have hsame : r' = r := by simpa [Registry.update, hr, hkey, eq_comm] using hr'
      rw [hsame, hs] at hl
      cases hl
    case pos =>
      rw [← hkey, hr] at hk
      cases hk
      obtain ⟨held, hheld, -⟩ := (h.once k r hr hseat).row
      refine ⟨held, hheld, ?_⟩
      by_contra hn
      simp [Registry.beat, hs, hheld, hn] at hc

-- What a judgement by evidence may do to a record.
def Suspected (s t : Registry) (within : Session → Prop) : Prop :=
  t.seats = s.seats ∧ ∀ k, t.sessions k = s.sessions k ∨
    ∃ r, s.sessions k = some r ∧ r.state = .live ∧ within r ∧ t.sessions k = some { r with state := .suspect }

theorem observe_suspected {scope : Scope} {table : Dict ℕ ℕ} :
    Suspected s (step site s (.observe scope table)) fun r => r.scope = scope := by
  simp only [step, Registry.call, Registry.observe]
  split
  case isTrue  => exact ⟨rfl, fun _ => .inl rfl⟩
  case isFalse =>
    refine ⟨rfl, fun k => ?_⟩
    cases hr : s.sessions k
    case none   => exact .inl (by simp [Registry.update, hr])
    case some r =>
      simp only [Registry.update, hr, Option.map_some]
      split
      case isTrue => exact .inl rfl
      case isFalse hn =>
        obtain ⟨hscope, hlive⟩ := not_or.mp hn
        split
        case isTrue  => exact .inl rfl
        case isFalse => exact .inr ⟨r, rfl, not_not.mp hlive, not_not.mp hscope, rfl⟩

theorem sweep_suspected {now : ℤ} : Suspected s (step site s (.sweep now)) fun _ => True := by
  refine ⟨rfl, fun k => ?_⟩
  simp only [step, Registry.call, Registry.sweep]
  cases hr : s.sessions k
  case none   => exact .inl (by simp [Registry.update, hr])
  case some r =>
    simp only [Registry.update, hr, Option.map_some]
    split
    case isTrue hl => exact .inr ⟨r, rfl, hl.left, trivial, rfl⟩
    case isFalse   => exact .inl rfl

-- Over any run: a seat's generation never falls and has one execution; a closed record stays closed under its
-- generation as long as no registration reopens one, and such a registration does; a suspect record is revived only
-- by the holder of its seat; and judging by evidence only suspects live records, within the observed scope.
theorem registry_run (site : Site) (es₁ es₂ : List Call) :
    let s₁ := Run.run (step site) .empty es₁
    let s₂ := Run.run (step site) s₁ es₂
    (∀ seat held, s₁.seats seat = some held → ∃ held', s₂.seats seat = some held' ∧
      held.generation ≤ held'.generation ∧
      (held'.generation = held.generation → held'.executionId = held.executionId)) ∧
    (∀ k k' r r', s₁.sessions k = some r → s₂.sessions k' = some r' → r.seat ≠ "" → r'.seat = r.seat →
      r'.generation = r.generation → r'.executionId = r.executionId) ∧
    (Run.Along (step site) (fun s c => ¬Reopens site s c) s₁ es₂ → ∀ k r, s₁.sessions k = some r → r.state = .closed →
      ∃ r', s₂.sessions k = some r' ∧ r.generation ≤ r'.generation ∧
        (r'.generation = r.generation → r'.state = .closed)) ∧
    (∀ c, (∀ k r r', s₂.sessions k = some r → r.state = .closed → (step site s₂ c).sessions k = some r' →
      r'.generation = r.generation → r'.state = .closed) ↔ ¬Reopens site s₂ c) ∧
    (∀ scope sessionId read found now k r r', s₂.sessions k = some r → r.state = .suspect → r.seat ≠ "" →
      (step site s₂ (.heartbeat scope sessionId read found now)).sessions k = some r' → r'.state = .live →
      ∃ held, s₂.seats r.seat = some held ∧ heldBy held r) ∧
    (∀ scope table, Suspected s₂ (step site s₂ (.observe scope table)) fun r => r.scope = scope) ∧
    ∀ now, Suspected s₂ (step site s₂ (.sweep now)) fun _ => True := by
  intro s₁ s₂
  have h₁ : Held s₁ := .run
  have h₂ : Held s₂ := by
    have h : Held (Run.run (step site) .empty (es₁ ++ es₂)) := .run
    rwa [Run.run_append] at h
  refine ⟨?seats, ?records, ?closed, fun c => closed_stays_iff, fun _ _ _ _ _ _ _ _ hr hs hne hr' hl =>
    revived_held h₂ hr hs hne hr' hl, fun _ _ => observe_suspected, fun _ => sweep_suspected⟩
  case seats =>
    intro seat held hs
    obtain ⟨hne, ho⟩ := h₁.once_row hs
    exact (ho.run hne).row
  case records =>
    intro k k' r r' hr hr' hne hseat hg
    exact ((h₁.once k r hr hne).run hne).records k' r' hr' hseat hg
  case closed =>
    intro hn k r hr hclosed
    have hstart : Ended k r.generation s₁ := ⟨r, hr, le_rfl, fun _ => hclosed⟩
    exact Run.Along.invariant (I := Ended k r.generation) (fun _ _ h hn => h.effect hn effect_step) hstart hn

-- A closed session that registers again on another process is live under the same key and generation.
theorem closed_reopened :
    let site : Site := ⟨"demo", fun scope id => scope.host ++ id, fun _ => "eng", 90000⟩
    let scope : Scope := ⟨"local", "anton", ""⟩
    let session : Session := ⟨"sess", scope, 7, 1, "claude", "n", "c", "exe-1", 1, "", .live, 0⟩
    let grant : Registration := ⟨"lgr", "demo", "exe-1", 1, "eng-1@demo", "t1", ∅⟩
    let s := Run.run (step site) .empty [.register session "n" (some grant) 0]
    let record := recordOf session "n" "eng-1@demo" 0
    let closed := step site s (.close scope "sess" record (some grant))
    let again := step site closed (.register { session with pid := 8 } "n" (some grant) 5)
    (closed.sessions "antonsess").map (fun r => (r.generation, r.state)) = some (1, .closed) ∧
      (again.sessions "antonsess").map (fun r => (r.generation, r.state)) = some (1, .live) := by
  decide +kernel

end Fleet
