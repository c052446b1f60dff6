import Agentihooks.Masters.System

namespace Masters

variable {slug phase owner seat added : String} {phases seatList phases' known : List String} {count n : ℕ}
variable {owners owners' previous : Dict String String} {handed : Finset String}

theorem lead_mem_seats (h : 1 ≤ count) : lead slug ∈ seats slug count := by
  refine List.mem_map.mpr ⟨1, ?_, rfl⟩
  rw [List.mem_range'_1]
  omega

-- Whoever owns a phase is one of the seats.
def Within (seatList : List String) (owners : Dict String String) : Prop :=
  ∀ phase owner, owners.lookup phase = some owner → owner ∈ seatList

-- Every one of the phases has an owner.
def Covers (phases : List String) (owners : Dict String String) : Prop :=
  ∀ phase ∈ phases, (owners.lookup phase).isSome

theorem Within.insert (h : Within seatList owners) (hs : seat ∈ seatList) : Within seatList (owners.insert phase seat) := by
  intro phase' owner howner
  by_cases hp : phase' = phase
  case pos =>
    subst hp
    exact Option.some.inj ((Finmap.lookup_insert _).symm.trans howner) ▸ hs
  case neg => exact h phase' owner ((Finmap.lookup_insert_of_ne _ hp).symm.trans howner)

-- A phase that has an owner still has one.
theorem isSome_insert {item : String} (h : (owners.lookup item).isSome) :
    ((owners.insert phase seat).lookup item).isSome := by
  by_cases hp : item = phase
  case pos => rw [hp, Finmap.lookup_insert]; rfl
  case neg => rwa [Finmap.lookup_insert_of_ne _ hp]

theorem fewest_mem (h : fewest seatList owners = some seat) : seat ∈ seatList :=
  List.argmin_mem h

theorem exists_fewest (h : seatList ≠ []) (owners : Dict String String) : ∃ seat, fewest seatList owners = some seat :=
  Option.ne_none_iff_exists'.mp fun hn => h (List.argmin_eq_none.mp hn)

theorem within_place (h : Within seatList owners) : Within seatList (place seatList owners phases) := by
  induction phases generalizing owners
  case nil => exact h
  case cons phase phases hi =>
    rw [place]
    split
    case isTrue  => exact hi h
    case isFalse =>
      split
      case h_1 seat hs => exact hi (h.insert (fewest_mem hs))
      case h_2         => exact hi h

theorem isSome_place {item : String} (h : (owners.lookup item).isSome) :
    ((place seatList owners phases).lookup item).isSome := by
  induction phases generalizing owners
  case nil => exact h
  case cons phase phases hi =>
    rw [place]
    split
    case isTrue  => exact hi h
    case isFalse =>
      split
      case h_1 => exact hi (isSome_insert h)
      case h_2 => exact hi h

theorem covers_place (hne : seatList ≠ []) : Covers phases (place seatList owners phases) := by
  induction phases generalizing owners
  case nil => simp [Covers]
  case cons phase phases hi =>
    rw [place]
    split
    case isTrue h =>
      exact List.forall_mem_cons.mpr ⟨isSome_place h, hi⟩
    case isFalse =>
      obtain ⟨seat, hs⟩ := exists_fewest hne owners
      rw [hs]
      refine List.forall_mem_cons.mpr ⟨isSome_place ?_, hi⟩
      rw [Finmap.lookup_insert]
      rfl

theorem within_take (h : Within seatList owners) (ha : added ∈ seatList) :
    Within seatList (take phases seatList handed added n owners) := by
  induction n generalizing owners
  case zero => exact h
  case succ n hi =>
    rw [take]
    split
    case h_1 => exact hi (h.insert ha)
    case h_2 => exact h

theorem isSome_take {item : String} (h : (owners.lookup item).isSome) :
    ((take phases seatList handed added n owners).lookup item).isSome := by
  induction n generalizing owners
  case zero => exact h
  case succ n hi =>
    rw [take]
    split
    case h_1 => exact hi (isSome_insert h)
    case h_2 => exact h

-- What the seats that are new take, one after the other.
def takes (phases seatList : List String) (handed : Finset String) (share : ℕ) (added : List String)
    (owners : Dict String String) : Dict String String :=
  added.foldl (fun owners added => take phases seatList handed added (share - load owners added) owners) owners

theorem within_takes {added : List String} {share : ℕ} (h : Within seatList owners) (ha : added ⊆ seatList) :
    Within seatList (takes phases seatList handed share added owners) := by
  induction added generalizing owners
  case nil => exact h
  case cons seat added hi =>
    exact hi (within_take h (ha List.mem_cons_self)) fun _ hs => ha (List.mem_cons_of_mem _ hs)

theorem isSome_takes {added : List String} {share : ℕ} {item : String} (h : (owners.lookup item).isSome) :
    ((takes phases seatList handed share added owners).lookup item).isSome := by
  induction added generalizing owners
  case nil => exact h
  case cons seat added hi => exact hi (isSome_take h)

-- Whoever a phase is assigned to is one of the seats.
theorem within_assign : Within seatList (assign phases seatList previous known handed) := by
  intro phase owner h
  have hkept : Within seatList (kept phases seatList previous) := by
    intro phase owner h
    exact (Finmap.lookup_select_eq_some.mp h).right.right
  have htaken : Within seatList (takes phases seatList handed (phases.length / seatList.length)
      (seatList.filter (· ∉ known)) (place seatList (kept phases seatList previous) phases)) :=
    within_takes (within_place hkept) fun _ => List.mem_of_mem_filter
  exact htaken phase owner (Finmap.lookup_restrict_eq_some.mp h).right

-- Every phase is assigned.
theorem isSome_assign (hne : seatList ≠ []) (hp : phase ∈ phases) :
    ((assign phases seatList previous known handed).lookup phase).isSome := by
  rw [assign, Finmap.lookup_restrict, if_pos hp]
  exact isSome_takes (covers_place hne phase hp)

end Masters

namespace Masters

variable {slug : String} {s s' : State} {t t' : Table} {e : Event} {es : List Event} {id : ℕ} {stage : Stage}
variable {phases : List String} {r : Reading} {version : ℕ} {field : Field} {hive owner address item : String}

-- The lead seat is never retired.
def LeadStays (slug : String) : Event → Prop
  | .retire address => address ≠ lead slug
  | _               => True

instance : Decidable (LeadStays slug e) := by
  unfold LeadStays
  cases e <;> infer_instance

-- What a command lands on is still what its call has read: the seats that a count keeps retired, and the owners of
-- the other hives. A hive is not given to a retired seat, and where there is nothing to save the seats that the call
-- has read still are what they were.
def MeetsAt (slug : String) (t : Table) : Stage → Prop
  | .keep n retired              => keeps slug n retired = keeps slug n t.retired
  | .own hive owner hives        => owner ∉ t.retired ∧ hives.erase hive = t.hives.erase hive
  | .read phases _ r .handed     =>
    (Field.handed.read t r).Saved slug phases → r.current slug ⊆ (t.counted slug).filter (· ∉ t.retired)
  | _                            => True

instance : Decidable (MeetsAt slug t stage) := by
  unfold MeetsAt
  split <;> infer_instance

def Meets (slug : String) (s : State) : Event → Prop
  | .turn id => ∀ stage ∈ s.calls id, MeetsAt slug s.table stage
  | _        => True

instance : Decidable (Meets slug s e) := by
  unfold Meets
  cases e <;> infer_instance

def Allowed (slug : String) (s : State) (e : Event) : Prop :=
  LeadStays slug e ∧ Meets slug s e

instance : Decidable (Allowed slug s e) :=
  inferInstanceAs (Decidable (_ ∧ _))

section Tables

-- A table that changes has a new version.
def Advances (t t' : Table) : Prop :=
  t' = t ∨ t.version < t'.version

theorem Advances.le (h : Advances t t') : t.version ≤ t'.version := by
  obtain rfl | hlt := h
  · exact le_rfl
  · exact hlt.le

theorem advances_keepRetired {held : List String} : Advances t (t.keepRetired held) := by
  unfold Table.keepRetired
  split
  case isTrue  => exact .inl rfl
  case isFalse => exact .inr (Nat.lt_succ_self _)

theorem advances_turn : Advances s.table (s.turn slug id stage).1.table := by
  have hnew {t : Table} (h : t.version = s.table.version + 1) : Advances s.table t := .inr (h ▸ Nat.lt_succ_self _)
  cases stage with
  | count         => exact hnew rfl
  | retired       => exact .inl rfl
  | keep          => exact advances_keepRetired
  | check         => simp only [State.turn]; split <;> exact .inl rfl
  | hives         => exact .inl rfl
  | own           => exact hnew rfl
  | watch         => exact .inl rfl
  | read _ _ _ field =>
    simp only [State.turn]
    split
    case h_1 => exact .inl rfl
    case h_2 => split <;> exact .inl rfl
  | save          =>
    simp only [State.turn]
    split
    case isTrue  => exact hnew rfl
    case isFalse => exact .inl rfl

theorem advances_step : Advances s.table (step slug s e).table := by
  cases e with
  | call id call   => simp only [step]; split <;> exact .inl rfl
  | turn id        =>
    cases h : s.calls id with
    | none       => simp only [step, h]; exact .inl rfl
    | some stage =>
      simp only [step, h]
      exact advances_turn
  | retire address => exact .inr (Nat.lt_succ_self _)
  | stop id        => exact .inl rfl

theorem lookup_handOver {owned : Dict String String} {front : String} : (handOver owned address front).lookup item =
    (owned.lookup item).map fun owner => if owner = address then front else owner := by
  rw [handOver, Finmap.lookup_mapValues]

end Tables

section Sound

-- The lead is one of the seats that a call has read.
def Reading.Led (slug : String) (r : Reading) : Prop :=
  lead slug ∉ r.retired ∧ ∀ n ∈ r.count, 1 ≤ n

-- What a call has read is still there, if the table has not changed since.
def Stage.Sound (slug : String) (t : Table) : Stage → Prop
  | .count n                => 1 ≤ n
  | .read _ version r field => r.Led slug ∧ version ≤ t.version ∧ (version = t.version →
      (field = .count ∨ field = .hives ∨ field = .handed → r.retired = t.retired) ∧
      (field = .hives ∨ field = .handed → r.count = t.count))
  | .save _ version r       => r.Led slug ∧ version ≤ t.version ∧
      (version = t.version → r.retired = t.retired ∧ r.count = t.count)
  | _                       => True

-- Nothing belongs to a retired seat.
def Gone (t : Table) : Prop :=
  ∀ address ∈ t.retired, ∀ item, t.owners.lookup item ≠ some address ∧ t.hives.lookup item ≠ some address

structure TableSound (slug : String) (t : Table) : Prop where
  lead  : lead slug ∉ t.retired
  count : ∀ n ∈ t.count, 1 ≤ n
  gone  : Gone t

structure Sound (slug : String) (s : State) : Prop where
  table : TableSound slug s.table
  calls : ∀ id stage, s.calls id = some stage → stage.Sound slug s.table

theorem Stage.Sound.advance (h : stage.Sound slug t) (ha : Advances t t') : stage.Sound slug t' := by
  obtain rfl | hlt := ha
  · exact h
  · cases stage with
    | count => exact h
    | read  => exact ⟨h.left, h.right.left.trans hlt.le, fun he => absurd (he ▸ hlt) (not_lt.mpr h.right.left)⟩
    | save  => exact ⟨h.left, h.right.left.trans hlt.le, fun he => absurd (he ▸ hlt) (not_lt.mpr h.right.left)⟩
    | _     => trivial

theorem Sound.empty : Sound slug empty where
  table := ⟨by simp [Masters.empty], by simp [Masters.empty], by simp [Gone, Masters.empty]⟩
  calls := by simp [Masters.empty]

theorem TableSound.read (h : TableSound slug t) (hr : r.Led slug) : (field.read t r).Led slug := by
  cases field with
  | retired => exact ⟨h.lead, hr.right⟩
  | count   => exact ⟨hr.left, h.count⟩
  | _       => exact hr

theorem mem_current (h : owner ∈ r.current slug) : owner ∈ seats slug (r.count.getD 1) ∧ owner ∉ r.retired := by
  simpa [Reading.current] using h

theorem TableSound.retire (h : TableSound slug t) (hne : address ≠ Masters.lead slug) : TableSound slug (t.retire slug address) where
  lead  := by
    simp only [Table.retire]
    split
    case isTrue  => exact h.lead
    case isFalse =>
      rw [List.mem_append, List.mem_singleton, not_or]
      exact ⟨h.lead, hne.symm⟩
  count := h.count
  gone  := by
    intro retired hr item
    have hretired : retired ∈ t.retired ∨ retired = address := by
      simp only [Table.retire] at hr
      split at hr
      case isTrue  => exact .inl hr
      case isFalse => simpa using hr
    have hlead : retired ≠ Masters.lead slug := by
      rintro rfl
      exact hretired.elim h.lead hne.symm
    -- Nothing is left with the retired seat, and what it had goes to the lead.
    have hover {owned : Dict String String} (hold : retired ∈ t.retired → owned.lookup item ≠ some retired) :
        (handOver owned address (Masters.lead slug)).lookup item ≠ some retired := by
      rw [lookup_handOver]
      intro howner
      obtain ⟨owner, hl, ho⟩ := Option.map_eq_some_iff.mp howner
      split at ho
      case isTrue        => exact hlead ho.symm
      case isFalse hkept =>
        subst ho
        exact hretired.elim (hold · hl) hkept
    exact ⟨hover fun hm => (h.gone retired hm item).left, hover fun hm => (h.gone retired hm item).right⟩

theorem TableSound.keepRetired {held : List String} (h : TableSound slug t) (hs : held ⊆ t.retired) :
    TableSound slug (t.keepRetired held) := by
  unfold Table.keepRetired
  split
  case isTrue  => exact h
  case isFalse => exact ⟨fun hl => h.lead (hs hl), h.count, fun address hm item => h.gone address (hs hm) item⟩

theorem TableSound.save (h : TableSound slug t) (hr : r.retired = t.retired) : TableSound slug (t.save slug phases r) where
  lead  := h.lead
  count := h.count
  gone  := by
    intro address hm item
    refine ⟨fun howner => ?_, (h.gone address hm item).right⟩
    exact (mem_current (within_assign item address howner)).right (hr ▸ hm)

theorem lookup_own {hives hives' : Dict String String} (owner item : String) (h : hives.erase hive = hives'.erase hive) :
    (hives.insert hive owner).lookup item = if item = hive then some owner else hives'.lookup item := by
  split
  case isTrue hi  => rw [hi, Finmap.lookup_insert]
  case isFalse hi =>
    have hl := congrArg (Finmap.lookup item) h
    rw [Finmap.lookup_erase_ne hi, Finmap.lookup_erase_ne hi] at hl
    rw [Finmap.lookup_insert_of_ne _ hi, hl]

theorem TableSound.own {hives : Dict String String} (h : TableSound slug t) (ho : owner ∉ t.retired)
    (hh : hives.erase hive = t.hives.erase hive) :
    TableSound slug { t with hives := hives.insert hive owner, version := t.version + 1 } where
  lead  := h.lead
  count := h.count
  gone  := by
    intro address hm item
    refine ⟨(h.gone address hm item).left, fun howner => ?_⟩
    rw [lookup_own _ item hh] at howner
    split at howner
    case isTrue  => exact ho (Option.some.inj howner ▸ hm)
    case isFalse => exact (h.gone address hm item).right howner

theorem Sound.move {next : Option Stage} (h : Sound slug s) (ht : TableSound slug t) (ha : Advances s.table t)
    (hs : ∀ stage ∈ next, stage.Sound slug t) : Sound slug (s.move id next t) where
  table := ht
  calls := by
    intro id' stage' hc
    by_cases hid : id' = id
    case pos =>
      subst hid
      simp only [State.move, Function.update_self] at hc
      exact hs stage' hc
    case neg =>
      simp only [State.move, Function.update_of_ne hid] at hc
      exact (h.calls id' stage' hc).advance ha

theorem keeps_subset {count : ℕ} : keeps slug count t.retired ⊆ t.retired :=
  fun _ => List.mem_of_mem_filter

theorem Sound.turn (h : Sound slug s) (hc : s.calls id = some stage) (hm : MeetsAt slug s.table stage) :
    Sound slug (s.turn slug id stage).1 := by
  have hstage := h.calls id stage hc
  have hsame {next : Option Stage} (hs : ∀ stage ∈ next, stage.Sound slug s.table) : Sound slug (s.move id next s.table) :=
    h.move h.table (.inl rfl) hs
  have hended {t : Table} (ht : TableSound slug t) (ha : Advances s.table t) : Sound slug (s.move id none t) :=
    h.move ht ha (by simp)
  have hnew {t : Table} (ht : t.version = s.table.version + 1) : Advances s.table t := .inr (ht ▸ Nat.lt_succ_self _)
  cases stage with
  | count n       =>
    refine h.move ⟨h.table.lead, fun m hcount => ?_, h.table.gone⟩ (hnew rfl) (by simp [Stage.Sound])
    exact Option.some.inj hcount ▸ hstage
  | retired n     => exact hsame (by simp [Stage.Sound])
  | keep n held   =>
    have hheld : keeps slug n held ⊆ s.table.retired := by
      rw [show keeps slug n held = keeps slug n s.table.retired from hm]
      exact keeps_subset
    exact hended (h.table.keepRetired hheld) advances_keepRetired
  | check         =>
    simp only [State.turn]
    split
    case isTrue  => exact hsame (by simp [Stage.Sound])
    case isFalse => exact hsame (by simp)
  | hives         => exact hsame (by simp [Stage.Sound])
  | own           => exact hended (h.table.own hm.left hm.right) (hnew rfl)
  | watch         => exact hsame (by simp [Stage.Sound, Reading.Led, Reading.nothing])
  | read _ version r field =>
    have hled : (field.read s.table r).Led slug := h.table.read hstage.left
    cases field with
    | handed =>
      simp only [State.turn, Field.next]
      split
      case isTrue  => exact hsame (by simp)
      case isFalse =>
        refine hsame fun stage hs => ?_
        cases hs
        exact ⟨hled, by simpa [Field.read] using hstage.right⟩
    | _      =>
      refine hsame fun stage hs => ?_
      cases hs
      exact ⟨hled, by simpa [Field.read] using hstage.right⟩
  | save _ version r       =>
    simp only [State.turn]
    split
    case isTrue hv => exact hended (h.table.save (hstage.right.right hv).left) (hnew rfl)
    case isFalse   => exact hsame (by simp [Stage.Sound])

theorem Sound.step (h : Sound slug s) (ha : Allowed slug s e) : Sound slug (step slug s e) := by
  cases e with
  | call id call   =>
    simp only [Masters.step]
    split
    case isTrue  => exact h
    case isFalse =>
      refine h.move h.table (.inl rfl) fun stage hstage => ?_
      cases call with
      | setCount n =>
        simp only [Call.begin_, Option.mem_def] at hstage
        split at hstage
        case isTrue     => cases hstage
        case isFalse hn =>
          cases hstage
          exact not_lt.mp hn
      | _          =>
        cases hstage
        trivial
  | turn id        =>
    cases hc : s.calls id with
    | none       =>
      simp only [Masters.step, hc]
      exact h
    | some stage =>
      simp only [Masters.step, hc]
      exact h.turn hc (ha.right stage hc)
  | retire address =>
    have ht : TableSound slug (s.table.retire slug address) := h.table.retire ha.left
    exact ⟨ht, fun id stage hc => (h.calls id stage hc).advance (.inr (Nat.lt_succ_self _))⟩
  | stop id        => exact h.move h.table (.inl rfl) (by simp)

theorem Sound.run (h : Sound slug s) (ha : Run.Along (Masters.step slug) (Allowed slug) s es) :
    Sound slug (Run.run (Masters.step slug) s es) :=
  ha.invariant (fun _ _ h ha => h.step ha) h

end Sound

end Masters

namespace Masters

variable {slug : String} {s : State} {t : Table} {e : Event} {es : List Event} {id : ℕ} {stage : Stage}
variable {phases : List String} {r : Reading} {hive owner address item : String} {hives : Dict String String}

-- Every phase of the document has an owner, which is a counted seat that is not retired.
def Owned (slug : String) (t : Table) (answer : Answer) : Prop :=
  ∀ phase ∈ answer.phases, ∃ owner, answer.owner phase = some owner ∧ owner ∈ t.counted slug ∧ owner ∉ t.retired

-- A hive that is shown with its owner has one of the seats.
theorem or_hive {found : Option String} {current : List String} {seat : String} (hs : seat ∈ current) :
    ∃ owner, (found.bind (hiveTargets hives current).lookup).or (some seat) = some owner ∧ owner ∈ current := by
  cases hhive : found.bind (hiveTargets hives current).lookup with
  | none       => exact ⟨seat, rfl, hs⟩
  | some owner =>
    obtain ⟨name, -, hname⟩ := Option.bind_eq_some_iff.mp hhive
    exact ⟨owner, rfl, (Finmap.lookup_select_eq_some.mp hname).right⟩

theorem answer_owner (hne : r.current slug ≠ []) (hp : item ∈ phases) :
    ∃ owner, r.answer slug phases item = some owner ∧ owner ∈ r.current slug := by
  obtain ⟨seat, hseat⟩ := Option.isSome_iff_exists.mp (isSome_assign hne hp)
  have hassigned : (r.assigned slug phases).lookup item = some seat := hseat
  simp only [Reading.answer, hassigned]
  exact or_hive (within_assign item seat hseat)

theorem lead_mem_current (hr : r.Led slug) : lead slug ∈ r.current slug := by
  refine List.mem_filter.mpr ⟨lead_mem_seats ?_, by simpa using hr.left⟩
  cases hn : r.count with
  | none   => exact le_rfl
  | some n => exact hr.right n hn

-- Whoever the answer names is a seat, if the seats that the call has read still are.
theorem owned_of_current (hr : r.Led slug)
    (hs : ∀ owner ∈ r.current slug, owner ∈ t.counted slug ∧ owner ∉ t.retired) :
    Owned slug t ⟨phases, r.answer slug phases⟩ := by
  intro phase hp
  obtain ⟨owner, howner, hmem⟩ := answer_owner (List.ne_nil_of_mem (lead_mem_current hr)) hp
  exact ⟨owner, howner, hs owner hmem⟩

theorem owned_turn {answer : Answer} (h : Sound slug s) (hc : s.calls id = some stage) (hm : MeetsAt slug s.table stage)
    (ha : (s.turn slug id stage).2 = some answer) : Owned slug (s.turn slug id stage).1.table answer := by
  have hstage := h.calls id stage hc
  cases stage with
  | read phases version r field =>
    have hled : (field.read s.table r).Led slug := h.table.read hstage.left
    cases field with
    | handed =>
      simp only [State.turn, Field.next] at ha ⊢
      split at ha
      case isTrue hsaved =>
        cases ha
        rw [if_pos hsaved]
        refine owned_of_current hled fun owner howner => ?_
        have hseat : owner ∈ s.table.counted slug ∧ owner ∉ s.table.retired := by simpa using hm hsaved howner
        exact hseat
      case isFalse => cases ha
    | _      => cases ha
  | save phases version r       =>
    simp only [State.turn] at ha ⊢
    split at ha
    case isTrue hv =>
      cases ha
      rw [if_pos hv]
      obtain ⟨hretired, hcount⟩ := hstage.right.right hv
      refine owned_of_current hstage.left fun owner howner => ?_
      obtain ⟨hseat, hkept⟩ := mem_current howner
      rw [hcount] at hseat
      exact ⟨hseat, fun hgone => hkept (hretired ▸ hgone)⟩
    case isFalse => cases ha
  | check                       =>
    simp only [State.turn] at ha
    split at ha <;> cases ha
  | _                           => cases ha

-- A retirement hands every phase and every hive of the seat to the lead, and leaves the others alone.
def Handed (slug address : String) (t t' : Table) : Prop :=
  address ∈ t'.retired ∧
  (∀ phase, t'.owners.lookup phase = (t.owners.lookup phase).map fun owner => if owner = address then lead slug else owner) ∧
  ∀ hive, t'.hives.lookup hive = (t.hives.lookup hive).map fun owner => if owner = address then lead slug else owner

theorem handed_retire : Handed slug address t (t.retire slug address) := by
  refine ⟨?_, fun _ => lookup_handOver, fun _ => lookup_handOver⟩
  simp only [Table.retire]
  split
  case isTrue h => exact h
  case isFalse  => simp

-- A retired seat stays retired until a count is set that it is above.
def Dropped (slug address : String) (s : State) : Event → Prop
  | .turn id => ∃ n held, s.calls id = some (.keep n held) ∧ ¬ (1 < number slug address ∧ number slug address ≤ n)
  | _        => False

theorem retired_step (ha : Allowed slug s e) (hr : address ∈ s.table.retired) :
    address ∈ (step slug s e).table.retired ∨ Dropped slug address s e := by
  cases e with
  | call id call    =>
    simp only [step]
    split <;> exact .inl hr
  | retire address' =>
    simp only [step, Table.retire]
    split
    case isTrue  => exact .inl hr
    case isFalse => exact .inl (List.mem_append_left _ hr)
  | stop id         => exact .inl hr
  | turn id         =>
    cases hc : s.calls id with
    | none       =>
      simp only [step, hc]
      exact .inl hr
    | some stage =>
      simp only [step, hc, Option.elim]
      have hm : MeetsAt slug s.table stage := ha.right stage hc
      cases stage with
      | keep n held =>
        by_cases hn : 1 < number slug address ∧ number slug address ≤ n
        case neg => exact .inr ⟨n, held, hc, hn⟩
        case pos =>
          have hkept : address ∈ keeps slug n held := by
            rw [show keeps slug n held = keeps slug n s.table.retired from hm]
            exact List.mem_filter.mpr ⟨hr, by simpa using hn⟩
          simp only [State.turn, State.move, Table.keepRetired]
          split
          case isTrue  => exact .inl hr
          case isFalse => exact .inl hkept
      | check       => simp only [State.turn]; split <;> exact .inl hr
      | read _ _ _ field =>
        cases field with
        | handed => simp only [State.turn, Field.next]; split <;> exact .inl hr
        | _      => exact .inl hr
      | save        => simp only [State.turn]; split <;> exact .inl hr
      | _           => exact .inl hr

-- Nobody else owns the hive, and the seat that owns it is not retired.
def Leaves (hive owner : String) (s : State) : Event → Prop
  | .turn id        => ∀ owner' hives, s.calls id ≠ some (.own hive owner' hives)
  | .retire address => address ≠ owner
  | _               => True

theorem kept_turn (hm : MeetsAt slug s.table stage) (hs : ∀ owner' hives, stage ≠ .own hive owner' hives)
    (hk : s.table.hives.lookup hive = some owner) : (s.turn slug id stage).1.table.hives.lookup hive = some owner := by
  cases stage with
  | own hive' owner' hives   =>
    have hne : hive ≠ hive' := fun he => hs owner' hives (by rw [he])
    have hl := lookup_own owner' hive hm.right
    rw [if_neg hne] at hl
    exact hl.trans hk
  | keep                     => simp only [State.turn, State.move, Table.keepRetired]; split <;> exact hk
  | check                    => simp only [State.turn]; split <;> exact hk
  | read _ _ _ field         =>
    cases field with
    | handed => simp only [State.turn, Field.next]; split <;> exact hk
    | _      => exact hk
  | save                     => simp only [State.turn]; split <;> exact hk
  | _                        => exact hk

theorem kept_step (ha : Allowed slug s e) (hs : Leaves hive owner s e) (hk : s.table.hives.lookup hive = some owner) :
    (step slug s e).table.hives.lookup hive = some owner := by
  cases e with
  | call id call   => simp only [step]; split <;> exact hk
  | turn id        =>
    cases hc : s.calls id with
    | none       =>
      simp only [step, hc]
      exact hk
    | some stage =>
      simp only [step, hc]
      exact kept_turn (ha.right stage hc) (fun owner' hives he => hs owner' hives (he ▸ hc)) hk
  | retire address =>
    have hl : (step slug s (.retire address)).table.hives.lookup hive = _ := lookup_handOver
    rw [hl, hk, Option.map_some, if_neg (Ne.symm hs)]
  | stop id        => exact hk

theorem kept_run (ha : Run.Along (step slug) (Allowed slug) s es) (hs : Run.Along (step slug) (Leaves hive owner) s es)
    (hk : s.table.hives.lookup hive = some owner) :
    (Run.run (step slug) s es).table.hives.lookup hive = some owner :=
  (ha.and hs).invariant (I := fun s => s.table.hives.lookup hive = some owner)
    (fun _ _ hk h => kept_step h.left h.right hk) hk

-- The hive is shown with its owner for as long as that is a seat.
def Shown (hive owner : String) (t : Table) : Prop :=
  ∀ current : List String, owner ∈ current → (hiveTargets t.hives current).lookup hive = some owner

theorem shown_of_lookup (hk : t.hives.lookup hive = some owner) : Shown hive owner t :=
  fun _ ho => Finmap.lookup_select_eq_some.mpr ⟨hk, ho⟩

theorem lookup_of_own (hc : s.calls id = some (.own hive owner hives)) :
    (step slug s (.turn id)).table.hives.lookup hive = some owner := by
  simp only [step, hc]
  exact Finmap.lookup_insert _

-- Whoever is answered is answered with counted seats, nothing belongs to a retired seat, and a hive keeps its owner
-- until it is owned again or the owner is retired.
theorem masters_run (slug : String) (es : List Event) (h : Run.Along (step slug) (Allowed slug) empty es) :
    let s := Run.run (step slug) empty es
    (∀ id stage answer, s.calls id = some stage → MeetsAt slug s.table stage → (s.turn slug id stage).2 = some answer →
      Owned slug (s.turn slug id stage).1.table answer) ∧
    Gone s.table ∧
    (∀ address, Handed slug address s.table (step slug s (.retire address)).table) ∧
    (∀ e address, Allowed slug s e → address ∈ s.table.retired →
      address ∈ (step slug s e).table.retired ∨ Dropped slug address s e) ∧
    ∀ id hive owner hives es', s.calls id = some (.own hive owner hives) →
      Run.Along (step slug) (Allowed slug) s (.turn id :: es') →
      Run.Along (step slug) (Leaves hive owner) (step slug s (.turn id)) es' →
      Shown hive owner (Run.run (step slug) s (.turn id :: es')).table := by
  intro s
  have hs : Sound slug s := Sound.empty.run h
  refine ⟨fun id stage answer hc hm ha => owned_turn hs hc hm ha, hs.table.gone, fun address => handed_retire,
    fun e address ha hr => retired_step ha hr, ?_⟩
  intro id hive owner hives es' hc ha hl
  have hrest : Run.Along (step slug) (Allowed slug) (step slug s (.turn id)) es' := ha.right
  have hk := kept_run hrest hl (lookup_of_own hc)
  exact shown_of_lookup hk

-- A hive of `master`, another one of `master-2`, and the phases given to both.
def settled : List Event :=
  [.call 0 (.setCount 2), .turn 0, .turn 0, .turn 0, .call 1 (.ownHive "a" "master@s"), .turn 1, .turn 1, .turn 1,
    .call 2 (.ownHive "b" "master-2@s"), .turn 2, .turn 2, .turn 2, .call 3 (.owners ["p", "q"]), .turn 3, .turn 3,
    .turn 3, .turn 3, .turn 3, .turn 3, .turn 3, .turn 3, .retire "master-2@s", .call 4 (.owners ["p", "q"]), .turn 4,
    .turn 4, .turn 4, .turn 4, .turn 4, .turn 4]

theorem masters_run_settled : Gone (Run.run (step "s") empty settled).table :=
  (masters_run "s" settled (by decide +kernel)).right.left

-- Two calls that both have read the hives: the second one's write takes the first one's hive away. And a call that a
-- retirement comes before gives its hive to the retired seat.
def crossed : List Event :=
  [.call 1 (.ownHive "a" "master@s"), .call 2 (.ownHive "b" "master@s"), .turn 1, .turn 1, .turn 2, .turn 2, .turn 1,
    .turn 2]

def late : List Event :=
  [.call 0 (.setCount 2), .turn 0, .turn 0, .turn 0, .call 1 (.ownHive "a" "master-2@s"), .turn 1, .turn 1,
    .retire "master-2@s", .turn 1]

theorem masters_crossed :
    Run.Along (step "s") (fun _ e => LeadStays "s" e) empty crossed ∧
    (Run.run (step "s") empty crossed).calls 1 = none ∧
    (Run.run (step "s") empty (crossed.take 7)).table.hives.lookup "a" = some "master@s" ∧
    (Run.run (step "s") empty crossed).table.hives.lookup "a" = none ∧
    Run.Along (step "s") (fun _ e => LeadStays "s" e) empty late ∧
    ¬ Gone (Run.run (step "s") empty late).table := by
  refine ⟨by decide +kernel, rfl, by decide +kernel, by decide +kernel, by decide +kernel, fun hgone => ?_⟩
  exact (hgone "master-2@s" (by decide +kernel) "a").right (by decide +kernel)

end Masters
