import Mathlib
import Agentihooks.Slots.Accounts

namespace Slots

section Value

variable {v v' : Value} {now : ℤ} {x : String} {h h' : Holder} {b : Heartbeat} {t : Take} {r : Release} {a : Account}

theorem lookup_live : (v.live now).holders.lookup x = some h ↔ v.holders.lookup x = some h ∧ now < h.expiresMs :=
  Finmap.lookup_select_eq_some

theorem live_eq_none : (v.live now).holders.lookup x = none ↔ ∀ h ∈ v.holders.lookup x, h.expiresMs ≤ now := by
  rw [Option.eq_none_iff_forall_not_mem]
  simp only [Option.mem_def, lookup_live, not_and, not_lt]

-- A holder after a change: the same, with more time perhaps.
structure Renewed (now : ℤ) (h h' : Holder) : Prop where
  hive    : h'.hive = h.hive
  since   : h'.since = h.since
  expires : h'.expiresMs = h.expiresMs ∨ h'.expiresMs = now + ttlMs

theorem Renewed.refl : Renewed now h h :=
  ⟨rfl, rfl, .inl rfl⟩

theorem holders_renew : (b.renew a now v).holders = b.holders now v := by
  unfold Heartbeat.renew
  extract_lets holders hives
  split <;> rfl

theorem lookup_renew : (b.renew a now v).holders.lookup x = some h' ↔
    ∃ h, v.holders.lookup x = some h ∧ now < h.expiresMs ∧ ¬(b.owns h ∧ b.saysEnded x) ∧
      h' = if b.owns h ∧ b.saysLive x then { h with expiresMs := now + ttlMs } else h := by
  rw [holders_renew, Heartbeat.holders, Finmap.lookup_mapValues, Option.map_eq_some_iff]
  refine exists_congr fun h => ?_
  rw [Finmap.lookup_select_eq_some, lookup_live, and_assoc, and_assoc]
  exact and_congr_right fun _ => and_congr_right fun _ => and_congr_right fun _ => eq_comm

theorem Renewed.of_renew (hr : (b.renew a now v).holders.lookup x = some h') :
    ∃ h, v.holders.lookup x = some h ∧ now < h.expiresMs ∧ Renewed now h h' := by
  obtain ⟨h, hv, hlt, _, rfl⟩ := lookup_renew.mp hr
  refine ⟨h, hv, hlt, ?_⟩
  split
  case isTrue  => exact ⟨rfl, rfl, .inr rfl⟩
  case isFalse => exact .refl

-- No hive would take one more.
def Value.Full (v : Value) : Prop :=
  ∃ cap : ℤ, v.cap = cap ∧ cap ≤ v.used

theorem Value.full_iff {v : Value} {cap : ℤ} (h : v.cap = cap) : v.Full ↔ cap ≤ v.used := by
  constructor
  case mp =>
    rintro ⟨cap', hc, hle⟩
    obtain rfl := WithTop.coe_injective (h.symm.trans hc)
    exact hle
  case mpr => exact fun hle => ⟨cap, h, hle⟩

instance (v : Value) : Decidable v.Full :=
  match h : v.cap with
  | ⊤         => .isFalse (by rintro ⟨cap, hc, _⟩; cases h.symm.trans hc)
  | (cap : ℤ) => decidable_of_iff (cap ≤ v.used) (Value.full_iff h).symm

-- All that a reservation comes to.
inductive Reserves (t : Take) (now : ℤ) (v : Value) : Option (Bool × Value) → Prop
  | raised (hn : (v.live now).holders.lookup t.execution = none) (hc : (v.live now).cap = ⊤) : Reserves t now v none
  | held (h : Holder) (yes : Bool) (hl : (v.live now).holders.lookup t.execution = some h)
    (hy : yes = true ↔ h.hive = t.hive) : Reserves t now v (some (yes, v.live now))
  | full (hn : (v.live now).holders.lookup t.execution = none) (hf : (v.live now).Full) :
    Reserves t now v (some (false, v.live now))
  | taken (cap : ℤ) (hn : (v.live now).holders.lookup t.execution = none) (hc : (v.live now).cap = cap)
    (hu : (v.live now).used < cap) : Reserves t now v
      (some (true, ⟨(v.live now).holders.insert t.execution ⟨t.hive, now + ttlMs, now⟩, (v.live now).hives⟩))

theorem reserves (t : Take) (now : ℤ) (v : Value) : Reserves t now v (t.reserve now v) := by
  unfold Take.reserve
  extract_lets live
  split
  case h_1 h hl => exact .held h _ hl decide_eq_true_iff
  case h_2 hn   =>
    split
    case h_1 hc     => exact .raised hn hc
    case h_2 cap hc =>
      split
      case isTrue hf  => exact .full hn ((Value.full_iff hc).mpr hf)
      case isFalse hf => exact .taken cap hn hc (not_le.mp hf)

-- A holder after a reservation was one before, or has just taken the slot.
theorem lookup_reserved {yes : Bool} (hr : t.reserve now v = some (yes, v')) (hl : v'.holders.lookup x = some h') :
    (v.holders.lookup x = some h' ∧ now < h'.expiresMs) ∨
    (yes = true ∧ x = t.execution ∧ h' = ⟨t.hive, now + ttlMs, now⟩ ∧
      (v.live now).holders.lookup t.execution = none ∧ ¬(v.live now).Full) := by
  have h := reserves t now v
  rw [hr] at h
  cases h
  case held h _ _   => exact .inl (lookup_live.mp hl)
  case full         => exact .inl (lookup_live.mp hl)
  case taken cap hn hc hu =>
    by_cases hx : x = t.execution
    case pos =>
      subst hx
      rw [Finmap.lookup_insert] at hl
      exact .inr ⟨rfl, rfl, (Option.some.inj hl).symm, hn, (Value.full_iff hc).not.mpr (not_le.mpr hu)⟩
    case neg =>
      rw [Finmap.lookup_insert_of_ne _ hx] at hl
      exact .inl (lookup_live.mp hl)

-- Who holds the slot with time left still does.
theorem kept_reserved {yes : Bool} (hr : t.reserve now v = some (yes, v')) (hl : v.holders.lookup x = some h)
    (hlt : now < h.expiresMs) : v'.holders.lookup x = some h := by
  have hlive := lookup_live.mpr ⟨hl, hlt⟩
  have hv := reserves t now v
  rw [hr] at hv
  cases hv
  case held h _ _   => exact hlive
  case full         => exact hlive
  case taken cap hn hc hu =>
    rw [Finmap.lookup_insert_of_ne, hlive]
    rintro rfl
    exact absurd (hn.symm.trans hlive) (by simp)

theorem lookup_remove : (r.remove v).holders.lookup x =
    if x = r.execution ∧ (v.holders.lookup x).any (·.hive = r.hive) then none else v.holders.lookup x := by
  unfold Release.remove
  by_cases hx : x = r.execution
  case pos =>
    subst hx
    by_cases ho : ((v.holders.lookup r.execution).any (·.hive = r.hive)) = true
    case pos => simp [ho]
    case neg => simp [ho]
  case neg =>
    split
    case isTrue  => simp [hx]
    case isFalse => simp [hx]

theorem hives_remove : (r.remove v).hives = v.hives := by
  unfold Release.remove
  split <;> rfl

theorem live_eq_self (hh : ∀ x h, v.holders.lookup x = some h → now < h.expiresMs)
    (hi : ∀ n i, v.hives.lookup n = some i → now < i.expiresMs) : v.live now = v :=
  congrArg₂ Value.mk (Finmap.select_eq_self hh) (Finmap.select_eq_self hi)

theorem used_insert (hn : v.holders.lookup x = none) : Value.used ⟨v.holders.insert x h, v.hives⟩ = v.used + 1 := by
  have hc : (v.holders.insert x h).keys.card = v.holders.keys.card + 1 := by
    rw [Finmap.card_keys, Finmap.card_keys, Finmap.entries_insert_of_notMem (Finmap.lookup_eq_none.mp hn),
      Multiset.card_cons]
  simp only [Value.used, hc]
  omega

-- Who has just taken the slot is within every cap.
theorem cap_reserved (hr : t.reserve now v = some (true, v'))
    (hn : (v.live now).holders.lookup t.execution = none) :
    ∃ cap : ℤ, (v'.live now).cap = cap ∧ (v'.live now).used ≤ cap := by
  have hv := reserves t now v
  rw [hr] at hv
  cases hv
  case held h hl _ => exact absurd (hn.symm.trans hl) (by simp)
  case taken cap hn hc hu =>
    have hself : Value.live ⟨(v.live now).holders.insert t.execution ⟨t.hive, now + ttlMs, now⟩, (v.live now).hives⟩ now =
        ⟨(v.live now).holders.insert t.execution ⟨t.hive, now + ttlMs, now⟩, (v.live now).hives⟩ := by
      refine live_eq_self (fun x h hx => ?_) fun n i hi => (Finmap.lookup_select_eq_some.mp hi).right
      by_cases he : x = t.execution
      case pos =>
        subst he
        rw [Finmap.lookup_insert] at hx
        cases hx
        simp [ttlMs]
      case neg =>
        rw [Finmap.lookup_insert_of_ne _ he] at hx
        exact (lookup_live.mp hx).right
    rw [hself, used_insert hn]
    exact ⟨cap, hc, hu⟩

end Value

section Turn

variable {s : State} {id : ℕ} {c : Call}

-- All that the next change of a call can be.
inductive Turned (s : State) (id : ℕ) (c : Call) : State → Prop
  | stay : Turned s id c s
  | remember (b : Heartbeat) (hop : c.operation.heartbeat? = some b) (hs : c.stage = .remember) :
    Turned s id c { s.move id c (.renew (b.remember (s.accounts b.hive))) with
      accounts := Function.update s.accounts b.hive (b.remember (s.accounts b.hive)) }
  | renew (b : Heartbeat) (a : Account) (rest : List Account) (hop : c.operation.heartbeat? = some b)
    (hs : c.stage = .renew (a :: rest)) :
    Turned s id c ((s.write a (b.renew a s.clock (s.value a))).move id c (.renew rest))
  | complete (b : Heartbeat) (hop : c.operation = .heartbeat b) (hs : c.stage = .renew []) :
    Turned s id c ((s.complete b c.began).move id c (.done none))
  | walk (t : Take) (hop : c.operation = .take t) (hs : c.stage = .renew []) :
    Turned s id c (s.move id c (.walk t.slots))
  | nowhere (t : Take) (hop : c.operation = .take t) (hs : c.stage = .walk []) :
    Turned s id c (s.move id c (.done none))
  | raised (t : Take) (slot : Slot) (rest : List Slot) (hop : c.operation = .take t) (hs : c.stage = .walk (slot :: rest))
    (hr : t.reserve s.clock (s.value slot.key) = none) : Turned s id c (s.move id c .raised)
  | passed (t : Take) (slot : Slot) (rest : List Slot) (v : Value) (hop : c.operation = .take t)
    (hs : c.stage = .walk (slot :: rest)) (hr : t.reserve s.clock (s.value slot.key) = some (false, v)) :
    Turned s id c ((s.write slot.key v).move id c (.walk rest))
  | taken (t : Take) (slot : Slot) (rest : List Slot) (v : Value) (hop : c.operation = .take t)
    (hs : c.stage = .walk (slot :: rest)) (hr : t.reserve s.clock (s.value slot.key) = some (true, v)) (stage : Stage)
    (hst : stage.result = some (some slot.account)) : Turned s id c ((s.write slot.key v).move id c stage)
  | removed (r : Release) (hs : c.stage = .remove r) :
    Turned s id c ((s.write r.account (r.remove (s.value r.account))).move id c .removed)

theorem turned : Turned s id c (s.turn id c) := by
  unfold State.turn
  split
  case h_1 hs =>
    split
    case h_1 b hop => exact .remember b hop hs
    case h_2       => exact .stay
  case h_2 a rest hs =>
    split
    case h_1 b hop => exact .renew b a rest hop hs
    case h_2       => exact .stay
  case h_3 b hop hs => exact .complete b hop hs
  case h_4 t hop hs => exact .walk t hop hs
  case h_5 t hop hs => exact .nowhere t hop hs
  case h_6 t slot rest hop hs =>
    split
    case h_1 hr   => exact .raised t slot rest hop hs hr
    case h_2 v hr => exact .passed t slot rest v hop hs hr
    case h_3 v hr =>
      refine .taken t slot rest v hop hs hr _ ?_
      split <;> rfl
  case h_7 r hs => exact .removed r hs
  case h_8      => exact .stay

-- All that an event can be.
inductive Happens (s : State) : Event → State → Prop
  | stay (e : Event) : Happens s e s
  | tick (d : ℕ) : Happens s (.tick d) { s with clock := s.clock + d }
  | call (id : ℕ) (op : Operation) (hn : s.calls id = none) : Happens s (.call id op) (s.begin_ id op)
  | turn (id : ℕ) (c : Call) (s' : State) (hc : s.calls id = some c) (ht : Turned s id c s') : Happens s (.turn id) s'
  | answer (id : ℕ) (c : Call) (t : Take) (account : String) (failed : Bool) (hc : s.calls id = some c)
    (hop : c.operation = .take t) (hs : c.stage = .invoke account) (stage : Stage)
    (hst : stage.result = some (some account) ∨ ∃ r, stage = .remove r) :
    Happens s (.answer id failed) (s.move id c stage)
  | stop (id : ℕ) : Happens s (.stop id) { s with calls := Function.update s.calls id none }

theorem happens (s : State) (e : Event) : Happens s e (after s e) := by
  cases e
  case tick d => exact .tick d
  case stop   => exact .stop _
  case call id op =>
    simp only [after, Option.isSome_iff_ne_none, ne_eq]
    split
    case isTrue     => exact .stay _
    case isFalse hn => exact .call id op (not_not.mp hn)
  case turn id =>
    cases hc : s.calls id
    case none   =>
      rw [after, hc]
      exact .stay _
    case some c =>
      rw [after, hc]
      exact .turn id c _ hc turned
  case answer id failed =>
    cases hc : s.calls id
    case none   =>
      rw [after, hc]
      exact .stay _
    case some c =>
      simp only [after, hc, Option.elim_some, State.answer]
      split
      case h_1 t account hop hs =>
        refine .answer id c t account failed hc hop hs _ ?_
        cases failed
        case false => exact .inl rfl
        case true  => exact .inr ⟨_, rfl⟩
      case h_2 => exact .stay _

theorem value_write (a b : Account) (v : Value) : (s.write a v).value b = if b = a then v else s.value b := by
  unfold State.value State.write
  split
  case isTrue hb  => subst hb; simp
  case isFalse hb => rw [Finmap.lookup_insert_of_ne _ hb]

theorem value_move (a : Account) (stage : Stage) : (s.move id c stage).value a = s.value a :=
  rfl

end Turn

section Holders

variable {s : State} {e : Event} {a : Account} {x : String} {h h' : Holder}

-- The turn of a take that is at a slot.
structure Walks (s : State) (e : Event) (t : Take) (slot : Slot) (rest : List Slot) : Prop where
  call : ∃ id c, e = .turn id ∧ s.calls id = some c ∧ c.operation = .take t ∧ c.stage = .walk (slot :: rest)

-- The ways for a holder to end that are not the end of its time.
inductive Ends (s : State) (e : Event) (a : Account) (x : String) (h : Holder) : Prop
  | heartbeat (id : ℕ) (c : Call) (b : Heartbeat) (rest : List Account) (he : e = .turn id) (hc : s.calls id = some c)
    (hop : c.operation = .heartbeat b) (hs : c.stage = .renew (a :: rest)) (ho : h.hive = b.hive) (hx : b.saysEnded x)
  | release (id : ℕ) (c : Call) (r : Release) (he : e = .turn id) (hc : s.calls id = some c) (hs : c.stage = .remove r)
    (ha : r.account = a) (hx : r.execution = x) (ho : h.hive = r.hive)

-- A holder after an event is one from before it, or a take that was at the slot has just added it.
theorem origin (hl : ((step s e).value a).holders.lookup x = some h') :
    (∃ h, (s.value a).holders.lookup x = some h ∧ Renewed s.clock h h' ∧
      ((step s e).clock < h'.expiresMs → s.clock < h.expiresMs)) ∨
    ∃ t slot rest, Walks s e t slot rest ∧ slot.key = a ∧ t.execution = x ∧ h' = ⟨t.hive, s.clock + ttlMs, s.clock⟩ ∧
      ((s.value a).live s.clock).holders.lookup x = none ∧ ¬((s.value a).live s.clock).Full := by
  change ((after s e).value a).holders.lookup x = some h' at hl
  change (∃ h, _ ∧ _ ∧ ((after s e).clock < _ → _)) ∨ _
  have he := happens s e
  generalize after s e = s' at hl he ⊢
  cases he with
  | stay       => exact .inl ⟨h', hl, .refl, id⟩
  | tick d     => exact .inl ⟨h', hl, .refl, fun hlt => lt_of_le_of_lt (by simp) hlt⟩
  | call       => exact .inl ⟨h', hl, .refl, id⟩
  | answer     => exact .inl ⟨h', hl, .refl, id⟩
  | stop       => exact .inl ⟨h', hl, .refl, id⟩
  | turn i c _ hc ht =>
    cases ht with
    | stay     => exact .inl ⟨h', hl, .refl, id⟩
    | remember => exact .inl ⟨h', hl, .refl, id⟩
    | complete => exact .inl ⟨h', hl, .refl, id⟩
    | walk     => exact .inl ⟨h', hl, .refl, id⟩
    | nowhere  => exact .inl ⟨h', hl, .refl, id⟩
    | raised   => exact .inl ⟨h', hl, .refl, id⟩
    | renew b a' rest hop hs =>
      rw [value_move, value_write] at hl
      split at hl
      case isTrue ha =>
        subst ha
        obtain ⟨h, hv, hlt, hr⟩ := Renewed.of_renew hl
        exact .inl ⟨h, hv, hr, fun _ => hlt⟩
      case isFalse => exact .inl ⟨h', hl, .refl, id⟩
    | passed t slot rest v hop hs hr =>
      rw [value_move, value_write] at hl
      split at hl
      case isTrue ha =>
        subst ha
        obtain ⟨hv, hlt⟩ | ⟨hy, _⟩ := lookup_reserved hr hl
        · exact .inl ⟨h', hv, .refl, fun _ => hlt⟩
        · cases hy
      case isFalse => exact .inl ⟨h', hl, .refl, id⟩
    | taken t slot rest v hop hs hr =>
      rw [value_move, value_write] at hl
      split at hl
      case isTrue ha =>
        subst ha
        obtain ⟨hv, hlt⟩ | ⟨_, rfl, rfl, hn, hf⟩ := lookup_reserved hr hl
        · exact .inl ⟨h', hv, .refl, fun _ => hlt⟩
        · exact .inr ⟨t, slot, rest, ⟨i, c, rfl, hc, hop, hs⟩, rfl, rfl, rfl, hn, hf⟩
      case isFalse => exact .inl ⟨h', hl, .refl, id⟩
    | removed r hs =>
      rw [value_move, value_write] at hl
      split at hl
      case isTrue ha =>
        subst ha
        rw [lookup_remove] at hl
        split at hl
        case isTrue  => cases hl
        case isFalse => exact .inl ⟨h', hl, .refl, id⟩
      case isFalse => exact .inl ⟨h', hl, .refl, id⟩

-- A holder that an event drops has ended, or its time has.
theorem lost (hl : (s.value a).holders.lookup x = some h) (hn : ((step s e).value a).holders.lookup x = none) :
    h.expiresMs ≤ s.clock ∨ Ends s e a x h := by
  by_contra hnot
  obtain ⟨hlt, hends⟩ := not_or.mp hnot
  rw [not_le] at hlt
  change ((after s e).value a).holders.lookup x = none at hn
  have he := happens s e
  generalize after s e = s' at hn he
  have still (hn : (s.value a).holders.lookup x = none) : False := absurd (hn.symm.trans hl) (by simp)
  cases he with
  | stay   => exact still hn
  | tick   => exact still hn
  | call   => exact still hn
  | answer => exact still hn
  | stop   => exact still hn
  | turn i c _ hc ht =>
    cases ht with
    | stay     => exact still hn
    | remember => exact still hn
    | complete => exact still hn
    | walk     => exact still hn
    | nowhere  => exact still hn
    | raised   => exact still hn
    | renew b a' rest hop hs =>
      rw [value_move, value_write] at hn
      split at hn
      case isTrue ha =>
        subst ha
        by_cases hx : b.owns h ∧ b.saysEnded x
        case pos =>
          cases ho : c.operation with
          | heartbeat b' =>
            obtain rfl : b' = b := by simpa [ho, Operation.heartbeat?] using hop
            exact hends (.heartbeat i c b' rest rfl hc ho hs hx.left hx.right)
          | take t =>
            obtain rfl : t.heartbeat = b := by simpa [ho, Operation.heartbeat?] using hop
            simp [Heartbeat.saysEnded, Take.heartbeat] at hx
          | release r => simp [ho, Operation.heartbeat?] at hop
        case neg => exact absurd (hn.symm.trans (lookup_renew.mpr ⟨h, hl, hlt, hx, rfl⟩)) (by simp)
      case isFalse => exact still hn
    | passed t slot rest v hop hs hr =>
      rw [value_move, value_write] at hn
      split at hn
      case isTrue ha  => subst ha; exact absurd (hn.symm.trans (kept_reserved hr hl hlt)) (by simp)
      case isFalse    => exact still hn
    | taken t slot rest v hop hs hr =>
      rw [value_move, value_write] at hn
      split at hn
      case isTrue ha  => subst ha; exact absurd (hn.symm.trans (kept_reserved hr hl hlt)) (by simp)
      case isFalse    => exact still hn
    | removed r hs =>
      rw [value_move, value_write] at hn
      split at hn
      case isTrue ha =>
        subst ha
        rw [lookup_remove] at hn
        split at hn
        case isTrue hx  => exact hends (.release i c r rfl hc hs rfl hx.left.symm (by simpa [hl] using hx.right))
        case isFalse    => exact still hn
      case isFalse => exact still hn

end Holders

section Sound

variable {s : State} {e : Event} {c c' : Call} {id : ℕ}

theorem clock_step : s.clock ≤ (step s e).clock := by
  change s.clock ≤ (after s e).clock
  have he := happens s e
  generalize after s e = s' at he ⊢
  cases he with
  | tick d          => simp
  | turn i c _ hc ht => cases ht <;> exact le_rfl
  | _               => exact le_rfl

theorem mem_remember {b : Heartbeat} {accounts : List Account} {a : Account} :
    a ∈ b.remember accounts ↔ a ∈ accounts ∨ ∃ slot ∈ b.report.slots, slot.key = a := by
  simp [Heartbeat.remember]

theorem accounts_step {hive : String} {a : Account} (h : a ∈ s.accounts hive) : a ∈ (step s e).accounts hive := by
  change a ∈ (after s e).accounts hive
  have he := happens s e
  generalize after s e = s' at he ⊢
  cases he with
  | turn i c _ hc ht =>
    cases ht with
    | remember b hop hs =>
      by_cases hb : hive = b.hive
      case pos => subst hb; simpa using mem_remember.mpr (.inl h)
      case neg => simpa [Function.update_of_ne hb] using h
    | _ => exact h
  | _ => exact h

-- Only the end of a heartbeat reports.
theorem reported_step (hive x : String) : (step s e).reported hive x = s.reported hive x ∨
    ∃ id c b, s.calls id = some c ∧ c.operation = .heartbeat b ∧ c.stage = .renew [] ∧ hive = b.hive ∧ b.saysLive x ∧
      (step s e).reported hive x = max (s.reported hive x) c.began ∧ (step s e).docs = s.docs := by
  change (after s e).reported hive x = _ ∨ ∃ id c b, _ ∧ _ ∧ _ ∧ _ ∧ _ ∧ (after s e).reported hive x = _ ∧ (after s e).docs = _
  have he := happens s e
  generalize after s e = s' at he ⊢
  cases he with
  | turn i c _ hc ht =>
    cases ht with
    | complete b hop hs =>
      by_cases hb : hive = b.hive ∧ b.saysLive x
      case pos => exact .inr ⟨i, c, b, hc, hop, hs, hb.left, hb.right, if_pos hb, rfl⟩
      case neg => exact .inl (if_neg hb)
    | _ => exact .inl rfl
  | _ => exact .inl rfl

-- What is true of a holder: it has its time from when it took the slot and from each report since.
structure HolderSound (s : State) (a : Account) (x : String) (h : Holder) : Prop where
  since    : h.since ≤ s.clock
  taken    : h.since + ttlMs ≤ h.expiresMs
  renewed  : h.expiresMs ≤ s.clock + ttlMs
  listed   : a ∈ s.accounts h.hive
  reported : s.reported h.hive x ≤ (h.expiresMs - ttlMs : ℤ)

-- What is true of a call. A heartbeat that says an execution is live has still to come to each of its accounts, or its
-- holder has the time.
structure CallSound (s : State) (c : Call) : Prop where
  began : c.began ≤ s.clock
  renew : ∀ b left, c.operation.heartbeat? = some b → c.stage = .renew left → ∀ a x h,
    (s.value a).holders.lookup x = some h → h.hive = b.hive → b.saysLive x → a ∈ left ∨ c.began + ttlMs ≤ h.expiresMs
  slots : ∀ t, c.operation = .take t → c.stage ≠ .remember → ∀ slot ∈ t.slots, slot.key ∈ s.accounts t.hive
  walk  : ∀ t left, c.operation = .take t → c.stage = .walk left → left ⊆ t.slots

structure Sound (s : State) : Prop where
  holders  : ∀ a x h, (s.value a).holders.lookup x = some h → HolderSound s a x h
  reported : ∀ hive x, s.reported hive x ≤ (s.clock : WithBot ℤ)
  calls    : ∀ id c, s.calls id = some c → CallSound s c

theorem Sound.start {clock : ℤ} : Sound (start clock) where
  holders  := fun a x h hl => by simp [Slots.start, State.value, Value.empty] at hl
  reported := fun _ _ => bot_le
  calls    := fun id c hc => by simp [Slots.start] at hc

-- What an event does elsewhere takes nothing from a call.
theorem CallSound.stays (hs : Sound s) (h : CallSound s c) : CallSound (step s e) c where
  began := h.began.trans clock_step
  renew := by
    intro b left hop hst a x h' hl hb hx
    obtain ⟨old, ho, hr, _⟩ | ⟨t, slot, rest, _, _, _, rfl, _⟩ := origin hl
    · obtain ha | hle := h.renew b left hop hst a x old ho (hr.hive ▸ hb) hx
      · exact .inl ha
      · refine .inr ?_
        have := h.began
        obtain he | he := hr.expires <;> omega
    · exact .inr (add_le_add_left h.began _)
  slots := fun t hop hst slot hm => accounts_step (h.slots t hop hst slot hm)
  walk  := h.walk

theorem CallSound.congr (h : CallSound s c) (hop : c'.operation = c.operation) (hst : c'.stage = c.stage)
    (hb : c'.began = c.began) : CallSound s c' where
  began := hb ▸ h.began
  renew := by rw [hop, hst, hb]; exact h.renew
  slots := by rw [hop, hst]; exact h.slots
  walk  := by rw [hop, hst]; exact h.walk

-- A call after an event, by what it was before it.
theorem call_step (hc : (step s e).calls id = some c') : ∃ c, (after s e).calls id = some c ∧
    c'.operation = c.operation ∧ c'.stage = c.stage ∧ c'.began = c.began ∧
    ∀ t, c.operation = .take t → ∀ a ∈ c'.held, a ∈ c.held ∧ (step s e).holds t.execution a := by
  obtain ⟨c, hafter, rfl⟩ := Option.map_eq_some_iff.mp hc
  refine ⟨c, hafter, ?_⟩
  split
  case h_1 t hop =>
    refine ⟨rfl, rfl, rfl, fun t' ht a ha => ?_⟩
    obtain rfl : t = t' := by simpa [hop] using ht
    exact Finset.mem_filter.mp ha
  case h_2 hop => exact ⟨rfl, rfl, rfl, fun t ht => absurd ht (hop t)⟩

-- How a call goes on.
inductive Moves (s : State) (e : Event) (c : Call) : Stage → Prop
  | remember (b : Heartbeat) (hop : c.operation.heartbeat? = some b) (hs : c.stage = .remember)
    (ha : (step s e).accounts b.hive = b.remember (s.accounts b.hive)) (hd : (step s e).docs = s.docs) :
    Moves s e c (.renew (b.remember (s.accounts b.hive)))
  | renew (b : Heartbeat) (a : Account) (rest : List Account) (hop : c.operation.heartbeat? = some b)
    (hs : c.stage = .renew (a :: rest)) (hd : (step s e).value a = b.renew a s.clock (s.value a)) :
    Moves s e c (.renew rest)
  | complete (b : Heartbeat) (hop : c.operation = .heartbeat b) (hs : c.stage = .renew []) : Moves s e c (.done none)
  | walk (t : Take) (hop : c.operation = .take t) (hs : c.stage = .renew []) : Moves s e c (.walk t.slots)
  | nowhere (t : Take) (hop : c.operation = .take t) (hs : c.stage = .walk []) : Moves s e c (.done none)
  | raised (t : Take) (slot : Slot) (rest : List Slot) (hop : c.operation = .take t) (hw : Walks s e t slot rest)
    (hs : c.stage = .walk (slot :: rest)) (hr : t.reserve s.clock (s.value slot.key) = none) : Moves s e c .raised
  | passed (t : Take) (slot : Slot) (rest : List Slot) (v : Value) (hop : c.operation = .take t)
    (hs : c.stage = .walk (slot :: rest)) (hr : t.reserve s.clock (s.value slot.key) = some (false, v)) :
    Moves s e c (.walk rest)
  | taken (t : Take) (slot : Slot) (rest : List Slot) (v : Value) (hop : c.operation = .take t) (hw : Walks s e t slot rest)
    (hs : c.stage = .walk (slot :: rest)) (hr : t.reserve s.clock (s.value slot.key) = some (true, v)) (stage : Stage)
    (hst : stage.result = some (some slot.account)) : Moves s e c stage
  | removed (r : Release) (hs : c.stage = .remove r) : Moves s e c .removed
  | answered (account : String) (hs : c.stage = .invoke account) (stage : Stage)
    (hst : stage.result = some (some account) ∨ ∃ r, stage = .remove r) : Moves s e c stage

theorem moved {i : ℕ} {stage : Stage} (hi : s.calls i = some c) (hm : Moves s e c stage)
    (hc : (s.move i c stage).calls id = some c') :
    s.calls id = some c' ∨ ∃ c₀ stage, s.calls id = some c₀ ∧ c' = { c₀ with stage } ∧ Moves s e c₀ stage := by
  by_cases hid : id = i
  case pos =>
    subst hid
    simp only [State.move, Function.update_self, Option.some.injEq] at hc
    subst hc
    exact .inr ⟨c, stage, hi, rfl, hm⟩
  case neg => exact .inl ((Function.update_of_ne hid ..).symm.trans hc)

-- A call that begins with an event.
structure Begins (s : State) (e : Event) (id : ℕ) (c : Call) : Prop where
  event : e = .call id c.operation
  began : c.began = s.clock
  stage : c.stage = .remember ∨ ∃ r, c.stage = .remove r
  held  : ∀ t, c.operation = .take t → c.stage = .remember ∧ c.held = s.held t.execution t.harness

theorem begins {op : Operation} (hc : (s.begin_ id op).calls id = some c) : Begins s (.call id op) id c := by
  simp only [State.begin_, Function.update_self, Option.some.injEq] at hc
  subst hc
  cases op with
  | heartbeat b => exact ⟨rfl, rfl, .inl rfl, fun t ht => by cases ht⟩
  | take t      => exact ⟨rfl, rfl, .inl rfl, fun t ht => by cases ht; exact ⟨rfl, rfl⟩⟩
  | release r   => exact ⟨rfl, rfl, .inr ⟨r, rfl⟩, fun t ht => by cases ht⟩

-- A call after an event is as it was, has begun with it, or has moved by it.
theorem call_cases (hc : (after s e).calls id = some c') :
    s.calls id = some c' ∨ Begins s e id c' ∨
      ∃ c stage, s.calls id = some c ∧ c' = { c with stage } ∧ Moves s e c stage := by
  have he := happens s e
  have hstep : step s e = (after s e).refreshed := rfl
  generalize after s e = s' at hc he hstep ⊢
  cases he with
  | stay   => exact .inl hc
  | tick d => exact .inl hc
  | call i op hn =>
    by_cases hid : id = i
    case pos => subst hid; exact .inr (.inl (begins hc))
    case neg => exact .inl ((Function.update_of_ne hid ..).symm.trans hc)
  | stop i =>
    by_cases hid : id = i
    case pos => subst hid; simp at hc
    case neg => exact .inl ((Function.update_of_ne hid ..).symm.trans hc)
  | answer i c t account failed hi hop hs stage hst =>
    exact (moved hi (.answered account hs stage hst) hc).imp_right .inr
  | turn i c _ hi ht =>
    cases ht with
    | stay              => exact .inl hc
    | remember b hop hs => exact (moved hi (.remember b hop hs (by simp [hstep, State.refreshed]) (by rw [hstep]; rfl)) hc).imp_right .inr
    | renew b a rest hop hs =>
      have hd : (step s (.turn i)).value a = b.renew a s.clock (s.value a) := by
        rw [hstep]
        exact (value_write a a _).trans (if_pos rfl)
      exact (moved hi (.renew b a rest hop hs hd) hc).imp_right .inr
    | complete b hop hs => exact (moved hi (.complete b hop hs) hc).imp_right .inr
    | walk t hop hs     => exact (moved hi (.walk t hop hs) hc).imp_right .inr
    | nowhere t hop hs  => exact (moved hi (.nowhere t hop hs) hc).imp_right .inr
    | raised t slot rest hop hs hr =>
      exact (moved hi (.raised t slot rest hop ⟨i, c, rfl, hi, hop, hs⟩ hs hr) hc).imp_right .inr
    | passed t slot rest v hop hs hr => exact (moved hi (.passed t slot rest v hop hs hr) hc).imp_right .inr
    | taken t slot rest v hop hs hr stage hst =>
      exact (moved hi (.taken t slot rest v hop ⟨i, c, rfl, hi, hop, hs⟩ hs hr stage hst) hc).imp_right .inr
    | removed r hs => exact (moved hi (.removed r hs) hc).imp_right .inr

theorem CallSound.moves {stage : Stage} (hs : Sound s) (h : CallSound s c) (hm : Moves s e c stage) :
    CallSound (step s e) { c with stage } := by
  have stays : CallSound (step s e) c := h.stays hs
  refine ⟨stays.began, fun b left hop hst a x h' hl hb hx => ?_, fun t hop hne slot hmem => ?_, fun t left hop hst => ?_⟩
  · cases hm with
    | remember b' hop' _ ha hd =>
      obtain rfl : b' = b := Option.some.inj (hop'.symm.trans hop)
      obtain rfl : b'.remember (s.accounts b'.hive) = left := by simpa using hst
      have hl' : (s.value a).holders.lookup x = some h' := by rw [← hl, State.value, State.value, hd]
      exact .inl (mem_remember.mpr (.inl (hb ▸ (hs.holders a x h' hl').listed)))
    | renew b' a' rest hop' hs' hd =>
      obtain rfl : b' = b := Option.some.inj (hop'.symm.trans hop)
      obtain rfl : rest = left := by simpa using hst
      obtain hmem | hle := stays.renew b' (a' :: rest) hop hs' a x h' hl hb hx
      · obtain rfl | hmem := List.mem_cons.mp hmem
        · rw [hd] at hl
          obtain ⟨old, _, _, _, rfl⟩ := lookup_renew.mp hl
          have ho : b'.owns old := by
            revert hb
            split <;> exact id
          rw [if_pos ⟨ho, hx⟩]
          exact .inr (add_le_add_left h.began _)
        · exact .inl hmem
      · exact .inr hle
    | taken t slot rest v _ _ _ _ _ hres => simp only [] at hst; subst hst; cases hres
    | answered account _ _ hres =>
      simp only [] at hst
      subst hst
      obtain hres | ⟨r, hres⟩ := hres <;> cases hres
    | _ => simp at hst
  · by_cases hrem : c.stage = .remember
    case neg => exact stays.slots t hop hrem slot hmem
    case pos =>
      cases hm with
      | remember b' hop' _ ha hd =>
        obtain rfl : t.heartbeat = b' := by simpa [show c.operation = .take t from hop, Operation.heartbeat?] using hop'
        have hk : slot.key ∈ t.heartbeat.remember (s.accounts t.hive) :=
          mem_remember.mpr (.inr ⟨slot, (List.mem_filter.mp hmem).left, rfl⟩)
        exact ha ▸ hk
      | renew _ _ _ _ hs'            => rw [hrem] at hs'; cases hs'
      | complete _ _ hs'             => rw [hrem] at hs'; cases hs'
      | walk _ _ hs'                 => rw [hrem] at hs'; cases hs'
      | nowhere _ _ hs'              => rw [hrem] at hs'; cases hs'
      | raised _ _ _ _ _ hs'         => rw [hrem] at hs'; cases hs'
      | passed _ _ _ _ _ hs'         => rw [hrem] at hs'; cases hs'
      | taken _ _ _ _ _ _ hs'        => rw [hrem] at hs'; cases hs'
      | removed _ hs'                => rw [hrem] at hs'; cases hs'
      | answered _ hs'               => rw [hrem] at hs'; cases hs'
  · cases hm with
    | walk t' hop' _ =>
      obtain rfl : t' = t := by simpa [show c.operation = .take t from hop] using hop'.symm
      obtain rfl : t'.slots = left := by simpa using hst
      exact List.Subset.refl _
    | passed t' slot rest v hop' hs' _ =>
      obtain rfl : rest = left := by simpa using hst
      exact List.Subset.trans (List.subset_cons_self ..) (h.walk t _ hop hs')
    | taken t slot rest v _ _ _ _ _ hres => simp only [] at hst; subst hst; cases hres
    | answered account _ _ hres =>
      simp only [] at hst
      subst hst
      obtain hres | ⟨r, hres⟩ := hres <;> cases hres
    | _ => simp at hst

theorem CallSound.begins (h : Begins s e id c) : CallSound (step s e) c where
  began := h.began ▸ clock_step
  renew := by
    intro b left _ hst
    obtain hs | ⟨r, hs⟩ := h.stage <;> rw [hs] at hst <;> cases hst
  slots := fun t hop hne => absurd (h.held t hop).left hne
  walk  := by
    intro t left hop hst
    rw [(h.held t hop).left] at hst
    cases hst

theorem HolderSound.step {a : Account} {x : String} {h' : Holder} (hs : Sound s)
    (hl : ((step s e).value a).holders.lookup x = some h') : HolderSound (step s e) a x h' := by
  have hclock := clock_step (s := s) (e := e)
  obtain ⟨h, ho, hr, _⟩ | ⟨t, slot, rest, ⟨i, c, rfl, hc, hop, hst⟩, rfl, rfl, rfl, _⟩ := origin hl
  · obtain ⟨since, taken, renewed, listed, reported⟩ := hs.holders a x h ho
    have hle : h.expiresMs ≤ h'.expiresMs := by obtain he | he := hr.expires <;> omega
    refine ⟨?_, ?_, ?_, ?_, ?_⟩
    · rw [hr.since]; omega
    · rw [hr.since]; omega
    · obtain he | he := hr.expires <;> omega
    · rw [hr.hive]; exact accounts_step listed
    · rw [hr.hive]
      have old : s.reported h.hive x ≤ (h'.expiresMs - ttlMs : ℤ) :=
        reported.trans (WithBot.coe_le_coe.mpr (by omega))
      obtain he | ⟨id, c, b, hc, hop, hst, hb, hx, he, hd⟩ := reported_step (s := s) (e := e) h.hive x
      · exact he ▸ old
      · have hl' : (s.value a).holders.lookup x = some h' := by rw [← hl, State.value, State.value, hd]
        rw [he]
        refine max_le old (WithBot.coe_le_coe.mpr ?_)
        obtain hmem | hle := (hs.calls id c hc).renew b [] (by simp [hop, Operation.heartbeat?]) hst a x h' hl'
          (hr.hive.trans hb) hx
        · cases hmem
        · omega
  · have hk := (hs.calls i c hc).slots t hop (by simp [hst]) slot ((hs.calls i c hc).walk t _ hop hst (by simp))
    refine ⟨hclock, le_rfl, by simpa using hclock, accounts_step hk, ?_⟩
    have old : s.reported t.hive t.execution ≤ (s.clock + ttlMs - ttlMs : ℤ) := by simpa using hs.reported t.hive t.execution
    obtain he | ⟨id, c, b, hc, _, _, _, _, he, _⟩ := reported_step (s := s) (e := .turn i) t.hive t.execution
    · exact he ▸ old
    · rw [he]
      have hb := (hs.calls id c hc).began
      exact max_le old (WithBot.coe_le_coe.mpr (by simpa using hb))

theorem Sound.step (hs : Sound s) : Sound (step s e) where
  holders  := fun a x h hl => .step hs hl
  reported := by
    intro hive x
    have hclock := WithBot.coe_le_coe.mpr (clock_step (s := s) (e := e))
    obtain he | ⟨id, c, b, hc, _, _, _, _, he, _⟩ := reported_step (s := s) (e := e) hive x
    · rw [he]; exact (hs.reported hive x).trans hclock
    · rw [he]
      exact max_le ((hs.reported hive x).trans hclock) ((WithBot.coe_le_coe.mpr (hs.calls id c hc).began).trans hclock)
  calls    := by
    intro id c' hc'
    obtain ⟨c, hc, hop, hst, hb, _⟩ := call_step hc'
    suffices h : CallSound (Slots.step s e) c from h.congr hop hst hb
    obtain hc | hb | ⟨c₀, stage, hc₀, rfl, hm⟩ := call_cases hc
    · exact (hs.calls id c hc).stays hs
    · exact .begins hb
    · exact (hs.calls id c₀ hc₀).moves hs hm

end Sound

section Kept

variable {s : State} {e : Event} {c c' : Call} {id : ℕ}

-- What an event leaves as it should.
structure Kept (s : State) (e : Event) : Prop where
  capped  : ∀ t slot rest, Walks s e t slot rest → ¬s.holds t.execution slot.key →
    (step s e).holds t.execution slot.key → ∃ cap : ℤ, (((step s e).value slot.key).live s.clock).cap = cap ∧ (((step s e).value slot.key).live s.clock).used ≤ cap
  single  : ∀ x harness a b, (step s e).holds x (harness, a) → (step s e).holds x (harness, b) → a = b
  same    : ∀ id c t, (step s e).calls id = some c → c.operation = .take t → ∀ a ∈ c.held,
    c.stage ≠ .raised ∧ ∀ account, c.stage.result = some account → account = some a.2
  dropped : ∀ a x h, (s.value a).holders.lookup x = some h → ((step s e).value a).holders.lookup x = none →
    Ends s e a x h ∨ (h.since + ttlMs ≤ s.clock ∧ s.reported h.hive x ≤ (s.clock - ttlMs : ℤ))
  removed : ∀ id c r, e = .turn id → s.calls id = some c → c.stage = .remove r → ∀ a x,
    ((step s e).value a).hives = (s.value a).hives ∧ ((step s e).value a).holders.lookup x =
      if a = r.account ∧ x = r.execution ∧ ((s.value a).holders.lookup x).any (·.hive = r.hive) then none
      else (s.value a).holders.lookup x

-- The slot that a take is at.
def Call.slot (c : Call) : Option (Take × Slot) :=
  match c.operation, c.stage with
  | .take t, .walk (slot :: _) => some (t, slot)
  | _, _                       => none

-- A take for an execution that holds an account starts at the hive that holds it and walks through it, and when a take
-- reaches an account that its execution does not hold while it holds another, there is no room.
def Sole (s : State) : Event → Prop
  | .call _ (.take t) => ∀ a ∈ s.held t.execution t.harness,
    ((s.value a).holders.lookup t.execution).any (·.hive = t.hive) ∧ a ∈ t.slots.map Slot.key
  | .turn id => ∀ p ∈ (s.calls id).bind Call.slot, ¬s.holds p.1.execution p.2.key →
    s.held p.1.execution p.1.harness ≠ ∅ → ((s.value p.2.key).live s.clock).Full
  | _ => True

instance (s : State) : DecidablePred (Sole s)
  | .call _ (.take _)      => inferInstanceAs (Decidable (∀ a ∈ _, _))
  | .turn _                => inferInstanceAs (Decidable (∀ p ∈ _, _))
  | .call _ (.heartbeat _) => .isTrue trivial
  | .call _ (.release _)   => .isTrue trivial
  | .tick _                => .isTrue trivial
  | .answer _ _            => .isTrue trivial
  | .stop _                => .isTrue trivial

theorem mem_held {x harness : String} {a : Account} : a ∈ s.held x harness ↔ a.1 = harness ∧ s.holds x a := by
  rw [State.held, Finset.mem_filter, and_iff_right_of_imp]
  rintro ⟨_, h, hl, _⟩
  rw [Finmap.mem_keys]
  by_contra hn
  simp [State.value, Finmap.lookup_eq_none.mpr hn, Value.empty] at hl

theorem Sole.begins {t : Take} {a : Account} {h : Holder} (hs : Sole s (.call id (.take t)))
    (hl : (s.value a).holders.lookup t.execution = some h) (hlt : s.clock < h.expiresMs) (ha : a.1 = t.harness) :
    h.hive = t.hive ∧ a ∈ t.slots.map Slot.key := by
  obtain ⟨hive, hlisted⟩ := hs a (mem_held.mpr ⟨ha, h, hl, hlt⟩)
  exact ⟨by simpa [hl] using hive, hlisted⟩

theorem Sole.full {t : Take} {slot : Slot} {rest : List Slot} {account : String} (hs : Sole s e) (hw : Walks s e t slot rest)
    (hn : ¬s.holds t.execution slot.key) (hh : s.holds t.execution (t.harness, account)) :
    ((s.value slot.key).live s.clock).Full := by
  obtain ⟨i, c, rfl, hc, hop, hst⟩ := hw
  exact hs (t, slot) (by simp [hc, Call.slot, hop, hst]) hn (Finset.ne_empty_of_mem (mem_held.mpr ⟨rfl, hh⟩))

-- What a take that has found its account waits for.
def Stage.Awaits (a : Account) : Stage → Prop
  | .walk left   => a ∈ left.map Slot.key
  | .raised      => False
  | stage        => ∀ account, stage.result = some account → account = some a.2

theorem Stage.Awaits.same {stage : Stage} {a : Account} (h : stage.Awaits a) :
    stage ≠ .raised ∧ ∀ account, stage.result = some account → account = some a.2 := by
  cases stage with
  | raised => exact h.elim
  | walk   => exact ⟨by simp, fun account h => by cases h⟩
  | _      => exact ⟨by simp, h⟩

structure Waits (s : State) (c : Call) (t : Take) (a : Account) : Prop where
  harness : a.1 = t.harness
  holder  : ∃ h ∈ (s.value a).holders.lookup t.execution, s.clock < h.expiresMs ∧ h.hive = t.hive
  listed  : a ∈ t.slots.map Slot.key
  stage   : c.stage.Awaits a

structure Single (s : State) : Prop where
  single : ∀ x harness a b, s.holds x (harness, a) → s.holds x (harness, b) → a = b
  calls  : ∀ id c t, s.calls id = some c → c.operation = .take t → ∀ a ∈ c.held, Waits s c t a

theorem Single.start {clock : ℤ} : Single (start clock) where
  single := by simp [State.holds, Slots.start, State.value, Value.empty]
  calls  := fun id c t hc => by simp [Slots.start] at hc

theorem key_eq {t : Take} {slot : Slot} (h : slot ∈ t.slots) : slot.key = (t.harness, slot.account) := by
  obtain ⟨_, hp⟩ := List.mem_filter.mp h
  simp only [decide_eq_true_eq, Bool.decide_and, Bool.and_eq_true] at hp
  rw [Slot.key, hp.left]

theorem live_eq_none_iff {a : Account} {x : String} :
    ((s.value a).live s.clock).holders.lookup x = none ↔ ¬s.holds x a := by
  rw [live_eq_none]
  simp [State.holds]

-- What is held after an event was held before it, or a take has just got it.
theorem holds_cases {x : String} {a : Account} (h : (step s e).holds x a) : s.holds x a ∨
    ∃ t slot rest, Walks s e t slot rest ∧ slot.key = a ∧ t.execution = x ∧ ¬s.holds x a ∧
      ¬((s.value a).live s.clock).Full := by
  obtain ⟨h', hl, hlt⟩ := h
  obtain ⟨h, ho, _, hlive⟩ | ⟨t, slot, rest, hw, hk, hx, _, hn, hf⟩ := origin hl
  · exact .inl ⟨h, ho, hlive hlt⟩
  · exact .inr ⟨t, slot, rest, hw, hk, hx, live_eq_none_iff.mp hn, hf⟩

theorem Sound.walks {t : Take} {slot : Slot} {rest : List Slot} (hs : Sound s) (hw : Walks s e t slot rest) :
    slot.key = (t.harness, slot.account) := by
  obtain ⟨i, c, rfl, hc, hop, hst⟩ := hw
  exact key_eq ((hs.calls i c hc).walk t _ hop hst (by simp))

theorem Walks.unique {t t' : Take} {slot slot' : Slot} {rest rest' : List Slot} (h : Walks s e t slot rest)
    (h' : Walks s e t' slot' rest') : t = t' ∧ slot = slot' := by
  obtain ⟨i, c, he, hc, hop, hst⟩ := h
  obtain ⟨i', c', he', hc', hop', hst'⟩ := h'
  obtain rfl : i = i' := by simpa using he.symm.trans he'
  obtain rfl : c = c' := Option.some.inj (hc.symm.trans hc')
  refine ⟨by simpa using hop.symm.trans hop', ?_⟩
  have := hst.symm.trans hst'
  simp only [Stage.walk.injEq, List.cons.injEq] at this
  exact this.left

-- Nobody adds an account while another of the harness is held.
theorem Sole.not_added (hs : Sound s) (hc : Sole s e) {t : Take} {slot : Slot} {rest : List Slot} {harness a b : String}
    (hw : Walks s e t slot rest) (hk : slot.key = (harness, a)) (hn : ¬s.holds t.execution (harness, a))
    (hf : ¬((s.value (harness, a)).live s.clock).Full) (hb : s.holds t.execution (harness, b)) : False := by
  obtain rfl : t.harness = harness := congrArg Prod.fst ((hs.walks hw).symm.trans hk)
  exact hf (hk ▸ hc.full hw (hk ▸ hn) hb)

theorem Single.step_single (hs : Sound s) (h : Single s) (hc : Sole s e) (x harness a b : String)
    (ha : (step s e).holds x (harness, a)) (hb : (step s e).holds x (harness, b)) : a = b := by
  obtain ha | ⟨t, slot, rest, hw, hk, rfl, hn, hf⟩ := holds_cases ha
  · obtain hb | ⟨t, slot, rest, hw, hk, rfl, hn, hf⟩ := holds_cases hb
    · exact h.single x harness a b ha hb
    · exact (hc.not_added hs hw hk hn hf ha).elim
  · obtain hb | ⟨t', slot', rest', hw', hk', _, _, _⟩ := holds_cases hb
    · exact (hc.not_added hs hw hk hn hf hb).elim
    · obtain ⟨_, rfl⟩ := hw.unique hw'
      exact congrArg Prod.snd (hk.symm.trans hk')

theorem Waits.stays {t : Take} {a : Account} (h : Waits s c t a) (hn : (step s e).holds t.execution a) :
    Waits (step s e) c t a where
  harness := h.harness
  holder  := by
    obtain ⟨h', hl, hlt⟩ := hn
    obtain ⟨h₀, hl₀, hlt₀, hive⟩ := h.holder
    obtain ⟨old, ho, hr, _⟩ | ⟨t, slot, rest, hw, hk, hx, _, hn, hf⟩ := origin hl
    · obtain rfl : h₀ = old := Option.some.inj (hl₀.symm.trans ho)
      exact ⟨h', hl, hlt, hr.hive.trans hive⟩
    · exact absurd ⟨h₀, hl₀, hlt₀⟩ (live_eq_none_iff.mp hn)
  listed  := h.listed
  stage   := h.stage

theorem Waits.holds {t : Take} {a : Account} (h : Waits s c t a) : s.holds t.execution (t.harness, a.2) := by
  obtain ⟨h₀, hl, hlt, _⟩ := h.holder
  rw [← h.harness]
  exact ⟨h₀, hl, hlt⟩

theorem Waits.moves {t : Take} {a : Account} {stage : Stage} (hs : Sound s) (h1 : Single s) (hsole : Sole s e)
    (hop : c.operation = .take t) (h : Waits s c t a) (hm : Moves s e c stage) : stage.Awaits a := by
  have hst := h.stage
  cases hm with
  | remember => exact fun account h => by cases h
  | renew    => exact fun account h => by cases h
  | removed  => exact fun account h => by cases h
  | complete b hop' => rw [hop] at hop'; cases hop'
  | walk t' hop' _ =>
    obtain rfl : t' = t := by simpa using hop'.symm.trans hop
    exact h.listed
  | nowhere _ _ hs' =>
    rw [hs'] at hst
    exact absurd hst (by simp [Stage.Awaits])
  | raised t' slot rest hop' hw _ hr =>
    obtain rfl : t' = t := by simpa using hop'.symm.trans hop
    have hv := reserves t' s.clock (s.value slot.key)
    rw [hr] at hv
    cases hv with
    | raised hn hc =>
      have hf := hsole.full hw (live_eq_none_iff.mp hn) h.holds
      exact absurd hf (by simp [Value.Full, hc])
  | passed t' slot rest v hop' hs' hr =>
    obtain rfl : t' = t := by simpa using hop'.symm.trans hop
    rw [hs'] at hst
    obtain rfl | hmem := List.mem_cons.mp hst
    · obtain ⟨h₀, hl, hlt, hive⟩ := h.holder
      have hlive := lookup_live.mpr ⟨hl, hlt⟩
      have hv := reserves t' s.clock (s.value slot.key)
      rw [hr] at hv
      cases hv with
      | held h' _ hl' hy =>
        obtain rfl : h₀ = h' := Option.some.inj (hlive.symm.trans hl')
        exact absurd (hy.mpr hive) (by simp)
      | full hn _ => exact absurd (hn.symm.trans hlive) (by simp)
    · exact hmem
  | taken t' slot rest v hop' hw _ hr stage hres =>
    obtain rfl : t' = t := by simpa using hop'.symm.trans hop
    have hk := hs.walks hw
    have heq : slot.account = a.2 := by
      by_cases hheld : s.holds t'.execution slot.key
      case pos => exact h1.single _ _ _ _ (hk ▸ hheld) h.holds
      case neg =>
        have hf := hsole.full hw hheld h.holds
        have hv := reserves t' s.clock (s.value slot.key)
        rw [hr] at hv
        cases hv with
        | held h' _ hl' _ => exact absurd (lookup_live.mp hl') fun hl' => hheld ⟨h', hl'⟩
        | taken cap _ hc hu => exact absurd ((Value.full_iff hc).mp hf) (not_le.mpr hu)
    cases stage with
    | invoke account => simpa [Stage.Awaits, Stage.result, ← heq] using hres
    | done account   => simpa [Stage.Awaits, Stage.result, ← heq] using hres
    | _              => cases hres
  | answered account hs' stage hres =>
    rw [hs'] at hst
    have heq : account = a.2 := Option.some.inj (hst (some account) rfl)
    obtain hres | ⟨r, rfl⟩ := hres
    · cases stage with
      | invoke account' => simpa [Stage.Awaits, Stage.result, ← heq] using hres
      | done account'   => simpa [Stage.Awaits, Stage.result, ← heq] using hres
      | _               => cases hres
    · exact fun account h => by cases h

theorem Waits.begins {t : Take} {a : Account} (hsole : Sole s e) (h : Begins s e id c) (hop : c.operation = .take t)
    (ha : a ∈ c.held) : Waits s c t a := by
  obtain ⟨hst, hheld⟩ := h.held t hop
  rw [hheld] at ha
  obtain ⟨_, hharness, h₀, hl, hlt⟩ := Finset.mem_filter.mp ha
  have hsole : Sole s (.call id (.take t)) := by
    rw [← hop, ← h.event]
    exact hsole
  obtain ⟨hive, hlisted⟩ := hsole.begins hl hlt hharness
  exact ⟨hharness, ⟨h₀, hl, hlt, hive⟩, hlisted, by rw [hst]; exact fun account h => by cases h⟩

theorem Single.step (hs : Sound s) (h : Single s) (hsole : Sole s e) : Single (step s e) where
  single := h.step_single hs hsole
  calls  := by
    intro id c' t hc' hop a ha
    obtain ⟨c, hc, hop', hst, _, hheld⟩ := call_step hc'
    rw [hop'] at hop
    obtain ⟨hmem, hn⟩ := hheld t hop a ha
    suffices hw : Waits (Slots.step s e) c t a from ⟨hw.harness, hw.holder, hw.listed, hst ▸ hw.stage⟩
    obtain hc | hb | ⟨c₀, stage, hc₀, rfl, hm⟩ := call_cases hc
    · exact (h.calls id c t hc hop a hmem).stays hn
    · exact (Waits.begins hsole hb hop hmem).stays hn
    · have hw := h.calls id c₀ t hc₀ hop a hmem
      have hnew := hw.stays hn
      exact ⟨hnew.harness, hnew.holder, hnew.listed, hw.moves hs h hsole (show c₀.operation = .take t from hop) hm⟩

theorem turn_eq (hc : s.calls id = some c) : after s (.turn id) = s.turn id c := by
  simp [after, hc]

theorem clock_turn : (step s (.turn id)).clock = s.clock := by
  change (after s (.turn id)).clock = s.clock
  have he := happens s (.turn id)
  generalize after s (.turn id) = s' at he ⊢
  cases he with
  | stay             => rfl
  | turn i c _ hc ht => cases ht <;> rfl

theorem value_walk {t : Take} {slot : Slot} {rest : List Slot} (hc : s.calls id = some c) (hop : c.operation = .take t)
    (hst : c.stage = .walk (slot :: rest)) :
    (step s (.turn id)).value slot.key = (t.reserve s.clock (s.value slot.key)).elim (s.value slot.key) Prod.snd := by
  change (after s (.turn id)).value slot.key = _
  rw [turn_eq hc]
  obtain hr | ⟨⟨_ | _, v⟩, hr⟩ := Option.eq_none_or_eq_some (t.reserve s.clock (s.value slot.key))
  · simp only [State.turn, hop, hst, hr]
    rfl
  · simp only [State.turn, hop, hst, hr]
    exact (value_write ..).trans (if_pos rfl)
  · simp only [State.turn, hop, hst, hr]
    exact (value_write ..).trans (if_pos rfl)

theorem capped {t : Take} {slot : Slot} {rest : List Slot} (hw : Walks s e t slot rest)
    (hn : ¬s.holds t.execution slot.key) (hh : (step s e).holds t.execution slot.key) :
    ∃ cap : ℤ, (((step s e).value slot.key).live s.clock).cap = cap ∧ (((step s e).value slot.key).live s.clock).used ≤ cap := by
  obtain ⟨i, c, rfl, hc, hop, hst⟩ := hw
  obtain ⟨h', hl, hlt⟩ := hh
  rw [clock_turn] at hlt
  rw [value_walk hc hop hst] at hl ⊢
  cases hr : t.reserve s.clock (s.value slot.key) with
  | none   =>
    rw [hr] at hl
    exact absurd ⟨h', hl, hlt⟩ hn
  | some r =>
    obtain ⟨yes, v⟩ := r
    rw [hr] at hl
    obtain ⟨hold, _⟩ | ⟨rfl, _⟩ := lookup_reserved hr hl
    · exact absurd ⟨h', hold, hlt⟩ hn
    · exact cap_reserved hr (live_eq_none_iff.mpr hn)

theorem removed {r : Release} (hc : s.calls id = some c) (hst : c.stage = .remove r) (a : Account) (x : String) :
    ((step s (.turn id)).value a).hives = (s.value a).hives ∧ ((step s (.turn id)).value a).holders.lookup x =
      if a = r.account ∧ x = r.execution ∧ ((s.value a).holders.lookup x).any (·.hive = r.hive) then none
      else (s.value a).holders.lookup x := by
  have hv : (step s (.turn id)).value a = if a = r.account then r.remove (s.value r.account) else s.value a := by
    change (after s (.turn id)).value a = _
    rw [turn_eq hc]
    simp only [State.turn, hst]
    exact value_write ..
  rw [hv]
  by_cases ha : a = r.account
  case pos =>
    subst ha
    rw [if_pos rfl, hives_remove, lookup_remove]
    simp
  case neg => simp [ha]

theorem Kept.of_sole (hs : Sound s) (h : Single s) (hsole : Sole s e) : Kept s e where
  capped  := fun _ _ _ hw => Slots.capped hw
  single  := (h.step hs hsole).single
  same    := by
    intro id c t hc hop a ha
    exact ((h.step hs hsole).calls id c t hc hop a ha).stage.same
  dropped := by
    intro a x h₀ hl hn
    obtain hle | hends := lost hl hn
    · refine .inr ?_
      obtain ⟨_, taken, _, _, reported⟩ := hs.holders a x h₀ hl
      exact ⟨taken.trans hle, reported.trans (WithBot.coe_le_coe.mpr (by omega))⟩
    · exact .inl hends
  removed := by
    rintro id c r rfl hc hst
    exact Slots.removed hc hst

end Kept

theorem slots_run (clock : ℤ) (es : List Event) (h : Run.Along step Sole (start clock) es) :
    Run.Along step Kept (start clock) es :=
  h.of_invariant (I := fun s => Sound s ∧ Single s) (fun _ _ hi hsole => ⟨hi.left.step, hi.right.step hi.left hsole⟩)
    (fun _ _ hi hsole => .of_sole hi.left hi.right hsole) ⟨.start, .start⟩

section Order

-- A take of hive h for one execution, with a report that lists these accounts.
def takeOf (accounts : List String) : Operation :=
  .take ⟨"h", "x", "claude", none, ⟨accounts.map fun a => ⟨"claude", a, 1⟩, ∅, ∅⟩, false⟩

def turns (id n : ℕ) : List Event :=
  List.replicate n (.turn id)

theorem slots_run_retried : Run.Along step Kept (start 0)
    (.call 0 (takeOf ["a", "b"]) :: turns 0 5 ++ .call 1 (takeOf ["a", "b"]) :: turns 1 5) :=
  slots_run 0 _ (by decide)

-- The retry finds the accounts in the other order and takes the second one too.
theorem slots_reordered : ¬Run.Along step Kept (start 0)
    (.call 0 (takeOf ["a", "b"]) :: turns 0 5 ++ .call 1 (takeOf ["b", "a"]) :: turns 1 5) := by
  intro h
  obtain ⟨_, _, _, _, _, _, _, _, _, _, _, last, _⟩ := h
  exact absurd (last.single "x" "claude" "a" "b" (by decide) (by decide)) (by decide)

end Order

end Slots
