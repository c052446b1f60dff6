import Mathlib.Data.Finset.Card
import Agentihooks.Reservation.LaunchSlots

namespace Reservation

variable {s s' : State} {e : Event} {es : List Event} {heartbeats : List (String × ℤ)}
variable {slot execution previous id : String} {cap ttlMs used now : ℤ} {row held : Row} {granted : Bool}

section Steps

-- The state with the slot granted.
def State.grant (s : State) (heartbeats : List (String × ℤ)) (slot execution : String) (ttlMs : ℤ) (previous : String) :
    State :=
  { s with
    rows     := (s.rows.restrict (· ∉ s.replaced heartbeats slot previous)).insert execution
      ⟨slot, .reserved, s.now + ttlMs⟩
    launched := insert execution
      ((s.launched.filter fun id => (s.rows.lookup id).isSome) \ s.replaced heartbeats slot previous) }

-- All that a reserve comes to.
inductive Reserved (s : State) (heartbeats : List (String × ℤ)) (slot execution : String) (cap ttlMs : ℤ)
    (previous : String) : Bool → ℤ → State → Prop
  | again (held : Row) (h : s.rows.lookup execution = some held) (hslot : held.slot = slot) (hstate : held.state ≠ .exited) :
    Reserved s heartbeats slot execution cap ttlMs previous true (s.sessions heartbeats slot) s
  | refused (held : Row) (h : s.rows.lookup execution = some held) (hno : held.slot ≠ slot ∨ held.state = .exited) :
    Reserved s heartbeats slot execution cap ttlMs previous false (s.sessions heartbeats slot) s
  | full (h : s.rows.lookup execution = none) (hu : cap ≤ s.used heartbeats slot previous) :
    Reserved s heartbeats slot execution cap ttlMs previous false (s.used heartbeats slot previous)
      { s with launched := s.launched.filter fun id => (s.rows.lookup id).isSome }
  | created (h : s.rows.lookup execution = none) (hu : s.used heartbeats slot previous < cap) :
    Reserved s heartbeats slot execution cap ttlMs previous true (s.used heartbeats slot previous)
      (s.grant heartbeats slot execution ttlMs previous)

theorem lookup_grant : (s.grant heartbeats slot execution ttlMs previous).rows.lookup id =
    if id = execution then some ⟨slot, .reserved, s.now + ttlMs⟩
    else if id ∈ s.replaced heartbeats slot previous then none else s.rows.lookup id := by
  unfold State.grant
  by_cases hid : id = execution
  case pos =>
    subst hid
    rw [if_pos rfl, Finmap.lookup_insert]
  case neg =>
    rw [if_neg hid, Finmap.lookup_insert_of_ne _ hid, Finmap.lookup_restrict]
    by_cases hr : id ∈ s.replaced heartbeats slot previous <;> simp [hr]

theorem reserved (h : s.reserveReading heartbeats slot execution cap ttlMs previous = some ((granted, used), s')) :
    Reserved s heartbeats slot execution cap ttlMs previous granted used s' := by
  unfold State.reserveReading at h
  split at h
  case isTrue  => cases h
  case isFalse =>
    have h := Option.some.inj h
    unfold State.reserve at h
    split at h
    case h_1 held hl =>
      split at h
      case isTrue hno   =>
        cases h
        exact .refused held hl hno
      case isFalse hyes =>
        cases h
        obtain ⟨hslot, hstate⟩ := not_or.mp hyes
        exact .again held hl (not_not.mp hslot) hstate
    case h_2 hl      =>
      simp only at h
      split at h
      case isTrue hfull =>
        cases h
        exact .full hl hfull
      case isFalse hfree =>
        cases h
        exact .created hl (not_le.mp hfree)

-- What a step does to the row of an execution.
inductive Changes (s : State) (e : Event) (execution : String) : Option Row → Option Row → Prop
  | same (row : Option Row) : Changes s e execution row row
  | gone (row : Row) : Changes s e execution (some row) none
  | reserved (heartbeats : List (String × ℤ)) (slot : String) (cap ttlMs : ℤ) (previous : String)
    (he : e = .reserve heartbeats slot execution cap ttlMs previous) :
    Changes s e execution none (some ⟨slot, .reserved, s.now + ttlMs⟩)
  | acknowledged (row : Row) (expires : ℤ) (h : row.state = .reserved) :
    Changes s e execution (some row) (some { row with state := .live, expires := expires })
  | appeared (slot : String) (expires : ℤ) (he : e = .acknowledge execution slot) (hs : slot ≠ "") :
    Changes s e execution none (some ⟨slot, .live, expires⟩)
  | released (row : Row) (expires : ℤ) : Changes s e execution (some row) (some { row with state := .exited, expires := expires })
  | extended (row : Row) (expires : ℤ) : Changes s e execution (some row) (some { row with expires := expires })

theorem Changes.filter {row : Option Row} {p : Row → Bool} : Changes s e id row (row.filter p) := by
  cases row with
  | none     => exact .same none
  | some row =>
    rw [Option.filter_some]
    split
    case isTrue  => exact .same _
    case isFalse => exact .gone row

theorem changes_expire {row : Option Row} {s' : State} (h : Changes s e id row (s'.rows.lookup id)) (hr : row = s.rows.lookup id)
    (he : ∀ r, s'.rows.lookup id = some r → ¬s'.now < r.expires → row ≠ none) :
    Changes s e id row (s'.expire.rows.lookup id) := by
  rw [State.expire, Finmap.lookup_select]
  cases hl : s'.rows.lookup id with
  | none   => rwa [Option.filter_none, ← hl]
  | some r =>
    rw [Option.filter_some]
    split
    case isTrue          => rwa [← hl]
    case isFalse hexpired =>
      obtain ⟨row, rfl⟩ := Option.ne_none_iff_exists'.mp (he r hl (by simpa using hexpired))
      exact .gone row

theorem changes (s : State) (e : Event) (id : String) : Changes s e id (s.rows.lookup id) ((step s e).rows.lookup id) := by
  cases e with
  | reserve heartbeats slot execution cap ttlMs previous =>
    simp only [step]
    cases h : s.reserveReading heartbeats slot execution cap ttlMs previous with
    | none        => exact .same _
    | some answer =>
      obtain ⟨⟨granted, used⟩, s'⟩ := answer
      simp only [Option.map_some, Option.getD_some]
      cases reserved h with
      | again   => exact .same _
      | refused => exact .same _
      | full    => exact .same _
      | created hl =>
        rw [lookup_grant]
        split
        case isTrue hid =>
          subst hid
          rw [hl]
          exact .reserved heartbeats slot cap ttlMs previous rfl
        case isFalse =>
          split
          case isFalse => exact .same _
          case isTrue  =>
            cases s.rows.lookup id with
            | none     => exact .same _
            | some row => exact .gone row
  | acknowledge execution slot =>
    simp only [step, State.acknowledge]
    by_cases hid : id = execution
    case pos =>
      subst hid
      cases hl : s.rows.lookup id with
      | none     =>
        simp only
        split
        case isTrue    => simpa [hl] using Changes.same none
        case isFalse h =>
          rw [Finmap.lookup_insert]
          exact .appeared slot _ rfl h
      | some row =>
        cases hs : row.state with
        | exited   => simpa [hl, hs] using Changes.same (some row)
        | live     => simpa [hl, hs] using Changes.same (some row)
        | reserved => simpa [hs] using Changes.acknowledged row _ hs
    case neg =>
      have hsame : (s.acknowledge slot execution).2.rows.lookup id = s.rows.lookup id := by
        unfold State.acknowledge
        split
        case h_1 => split <;> simp [Finmap.lookup_insert_of_ne _ hid]
        case h_2 => split <;> simp [Finmap.lookup_insert_of_ne _ hid]
      change Changes s _ id _ ((s.acknowledge slot execution).2.rows.lookup id)
      rw [hsame]
      exact .same _
  | release execution =>
    simp only [step, State.release]
    split
    case h_2 => exact .same _
    case h_1 held hl =>
      split
      case isTrue  => exact .same _
      case isFalse =>
        by_cases hid : id = execution
        case pos =>
          subst hid
          rw [hl, Finmap.lookup_insert]
          exact .released held _
        case neg =>
          rw [Finmap.lookup_insert_of_ne _ hid]
          exact .same _
  | extend execution ttlMs =>
    simp only [step, State.extend]
    split
    case h_2          => exact .same _
    case h_1 row hl   =>
      refine changes_expire ?_ rfl ?_
      all_goals
        by_cases hid : id = execution
      · subst hid
        rw [hl, Finmap.lookup_insert]
        exact .extended row _
      · rw [Finmap.lookup_insert_of_ne _ hid]
        exact .same _
      · subst hid
        simp [hl]
      · intro r hr _
        rw [Finmap.lookup_insert_of_ne _ hid] at hr
        simp [hr]
  | report hive report => cases report <;> exact .same _
  | pass ms            =>
    refine changes_expire (.same _) rfl fun r hr _ => ?_
    have hr : s.rows.lookup id = some r := hr
    simp [hr]

end Steps

section Runs

-- Every row is of an execution that is listed as launched.
def Listed (s : State) : Prop :=
  ∀ id row, s.rows.lookup id = some row → id ∈ s.launched

-- A reserve that creates a row leaves the slot's count at most its cap.
def Capped (s : State) : Prop :=
  ∀ heartbeats slot execution cap ttlMs previous used s', s.rows.lookup execution = none →
    s.reserveReading heartbeats slot execution cap ttlMs previous = some ((true, used), s') → s'.count heartbeats slot ≤ cap

-- The one row of an execution stays in its slot, and no other slot is granted to it meanwhile.
def OneSlot (s : State) : Prop :=
  ∀ execution row, s.rows.lookup execution = some row →
    (∀ e row', (step s e).rows.lookup execution = some row' → row'.slot = row.slot) ∧
    ∀ heartbeats slot cap ttlMs previous used s', slot ≠ row.slot →
      s.reserveReading heartbeats slot execution cap ttlMs previous ≠ some ((true, used), s')

-- The step leaves the execution a row.
def Keeps (execution : String) (s : State) (e : Event) : Prop :=
  ((step s e).rows.lookup execution).isSome

-- A granted reserve is granted again, and changes nothing, for as long as its row stays and is not released.
def Repeats (s : State) : Prop :=
  ∀ heartbeats slot execution cap ttlMs previous used s₁,
    s.reserveReading heartbeats slot execution cap ttlMs previous = some ((true, used), s₁) →
      ∀ es, Run.Along step (Keeps execution) s₁ es →
        let s₂ := Run.run step s₁ es
        (∀ row, s₂.rows.lookup execution = some row → row.state ≠ .exited) →
          ∀ heartbeats' (cap' ttlMs' : ℤ) previous', 0 ≤ cap' → 0 < ttlMs' → ttlMs' ≤ 300000 →
            s₂.reserveReading heartbeats' slot execution cap' ttlMs' previous' =
              some ((true, s₂.sessions heartbeats' slot), s₂)

-- The step does not bring back an execution that has no row any more, by a reserve or an acknowledgement that names
-- a slot.
def LeavesGone (execution : String) (s : State) (e : Event) : Prop :=
  s.rows.lookup execution = none → match e with
    | .reserve _ _ execution' _ _ _  => execution' ≠ execution
    | .acknowledge execution' slot   => execution' = execution → slot = ""
    | _                              => True

-- A released execution does not count again: as long as its row is kept no acknowledgement takes, and after that none
-- that names no slot.
def StaysReleased (s : State) : Prop :=
  ∀ execution s₁, s.release execution = (true, s₁) → ∀ es, Run.Along step (LeavesGone execution) s₁ es →
    let s₂ := Run.run step s₁ es
    (∀ row, s₂.rows.lookup execution = some row → row.state = .exited) ∧
    ∀ slot, (s₂.rows.lookup execution).isSome ∨ slot = "" → s₂.acknowledge slot execution = (false, s₂)

-- A reserve that creates a row takes away the previous reservation of the seat, if it is one of the slot that is not
-- acknowledged and not reported, and no other row.
def Replaces (s : State) : Prop :=
  ∀ heartbeats slot execution cap ttlMs previous used s', s.rows.lookup execution = none →
    s.reserveReading heartbeats slot execution cap ttlMs previous = some ((true, used), s') →
      s'.rows.lookup execution = some ⟨slot, .reserved, s.now + ttlMs⟩ ∧
      ∀ id, id ≠ execution → s'.rows.lookup id =
        if id = previous ∧ (s.rows.lookup id).any (fun row => row.slot = slot ∧ row.state = .reserved) ∧
          id ∉ s.seen heartbeats slot then none else s.rows.lookup id

theorem Listed.start : Listed (start now) := by
  simp [Listed, Reservation.start]

theorem mem_replaced : id ∈ s.replaced heartbeats slot previous ↔ id = previous ∧ id ∈ s.launched ∧
    (s.rows.lookup id).any (fun row => row.slot = slot ∧ row.state = .reserved) ∧ id ∉ s.seen heartbeats slot := by
  unfold State.replaced
  split
  case isTrue h =>
    rw [Finset.mem_singleton]
    constructor
    case mp =>
      rintro rfl
      exact ⟨rfl, h⟩
    case mpr => exact And.left
  case isFalse h =>
    simp only [Finset.notMem_empty, false_iff]
    rintro ⟨rfl, hrest⟩
    exact h hrest

theorem Listed.reserve (h : Listed s) (hr : Reserved s heartbeats slot execution cap ttlMs previous granted used s') :
    Listed s' := by
  cases hr with
  | again   => exact h
  | refused => exact h
  | full    => exact fun id row hrow => Finset.mem_filter.mpr ⟨h id row hrow, Option.isSome_of_eq_some hrow⟩
  | created =>
    intro id row hrow
    rw [lookup_grant] at hrow
    split at hrow
    case isTrue hid => exact hid ▸ Finset.mem_insert_self _ _
    case isFalse    =>
      split at hrow
      case isTrue          => cases hrow
      case isFalse hkept =>
        refine Finset.mem_insert_of_mem (Finset.mem_sdiff.mpr ⟨Finset.mem_filter.mpr ⟨h id row hrow, ?_⟩, hkept⟩)
        exact Option.isSome_of_eq_some hrow

theorem launched_acknowledge : s.launched ⊆ (s.acknowledge slot execution).2.launched ∧
    (s.rows.lookup execution = none → slot ≠ "" → execution ∈ (s.acknowledge slot execution).2.launched) := by
  unfold State.acknowledge
  split
  case h_1 held hl =>
    refine ⟨?_, fun hn => by cases hl.symm.trans hn⟩
    split <;> exact fun _ h => h
  case h_2 hl      =>
    split
    case isTrue hs  => exact ⟨fun _ h => h, fun _ hne => absurd hs hne⟩
    case isFalse hs => exact ⟨fun _ h => Finset.mem_insert_of_mem h, fun _ _ => Finset.mem_insert_self _ _⟩

theorem launched_release : (s.release execution).2.launched = s.launched := by
  unfold State.release
  split
  case h_1 => split <;> rfl
  case h_2 => rfl

theorem launched_extend : (s.extend execution ttlMs).launched = s.launched := by
  unfold State.extend
  split <;> rfl

theorem Listed.step (h : Listed s) : Listed (step s e) := by
  intro id row hrow
  have hchange := changes s e id
  rw [hrow] at hchange
  -- Apart from a reserve, only an acknowledgement that names a slot makes a row.
  have hbefore (hnot : ∀ heartbeats slot cap ttlMs previous, e ≠ .reserve heartbeats slot id cap ttlMs previous) :
      id ∈ s.launched ∨ s.rows.lookup id = none ∧ ∃ slot, e = .acknowledge id slot ∧ slot ≠ "" := by
    generalize hl : s.rows.lookup id = before at hchange
    cases hchange with
    | same                                         => exact .inl (h id row hl)
    | reserved heartbeats slot cap ttlMs previous he => exact absurd he (hnot heartbeats slot cap ttlMs previous)
    | acknowledged before                          => exact .inl (h id before hl)
    | appeared slot _ he hs                        => exact .inr ⟨rfl, slot, he, hs⟩
    | released before                              => exact .inl (h id before hl)
    | extended before                              => exact .inl (h id before hl)
  cases e with
  | reserve heartbeats slot execution cap ttlMs previous =>
    simp only [Reservation.step] at hrow ⊢
    cases hr : s.reserveReading heartbeats slot execution cap ttlMs previous with
    | none        =>
      rw [hr] at hrow
      exact h id row hrow
    | some answer =>
      rw [hr] at hrow
      exact h.reserve (reserved hr) id row hrow
  | acknowledge execution slot =>
    obtain hmem | ⟨hl, slot', he, hs⟩ := hbefore fun _ _ _ _ _ he => by cases he
    · exact launched_acknowledge.left hmem
    · cases he
      exact launched_acknowledge.right hl hs
  | release execution          =>
    obtain hmem | ⟨_, _, he, _⟩ := hbefore fun _ _ _ _ _ he => by cases he
    · rwa [Reservation.step, launched_release]
    · cases he
  | extend execution ttlMs     =>
    obtain hmem | ⟨_, _, he, _⟩ := hbefore fun _ _ _ _ _ he => by cases he
    · rwa [Reservation.step, launched_extend]
    · cases he
  | report hive report         => cases report <;> exact h id row hrow
  | pass ms                    =>
    obtain hmem | ⟨_, _, he, _⟩ := hbefore fun _ _ _ _ _ he => by cases he
    · exact hmem
    · cases he

theorem Listed.run (h : Listed s) : Listed (Run.run Reservation.step s es) :=
  Run.invariant (fun _ _ h => h.step) h

theorem Listed.capped (h : Listed s) : Capped s := by
  intro heartbeats slot execution cap ttlMs previous used s' hl hr
  cases reserved hr with
  | again held hl'  => cases hl.symm.trans hl'
  | created _ hu    =>
    let s' := s.grant heartbeats slot execution ttlMs previous
    have hcounts : (s'.rows.keys.filter fun id => s'.Counts heartbeats slot id).card ≤
        ((s.launched \ s.replaced heartbeats slot previous).filter fun id => s.Counts heartbeats slot id).card + 1 := by
      refine (Finset.card_le_card fun id hid => ?_).trans (Finset.card_insert_le execution _)
      rw [Finset.mem_insert, or_iff_not_imp_left]
      intro hne
      obtain ⟨_, hcounts, hunseen⟩ := Finset.mem_filter.mp hid
      rw [lookup_grant, if_neg hne] at hcounts
      split at hcounts
      case isTrue          => cases hcounts
      case isFalse hkept =>
        obtain ⟨row, hrow, _⟩ := (Option.any_eq_true _ _).mp hcounts
        exact Finset.mem_filter.mpr ⟨Finset.mem_sdiff.mpr ⟨h id row hrow, hkept⟩, hcounts, hunseen⟩
    have hleaves : (s.launched.filter fun id => s.Leaves heartbeats slot id).card ≤
        (s'.rows.keys.filter fun id => s'.Leaves heartbeats slot id).card := by
      refine Finset.card_le_card fun id hid => ?_
      obtain ⟨_, hleaves, hseen⟩ := Finset.mem_filter.mp hid
      obtain ⟨row, hrow, hexited⟩ := (Option.any_eq_true _ _).mp hleaves
      have hne : id ≠ execution := by
        rintro rfl
        cases hl.symm.trans hrow
      have hkept : id ∉ s.replaced heartbeats slot previous := fun hm => (mem_replaced.mp hm).right.right.right hseen
      have hrow' : s'.rows.lookup id = some row := by
        rw [lookup_grant, if_neg hne, if_neg hkept, hrow]
      refine Finset.mem_filter.mpr ⟨Finmap.mem_keys.mpr (Finmap.mem_of_lookup_eq_some hrow'), ?_, hseen⟩
      rw [hrow', ← hrow]
      exact hleaves
    have hsessions : s'.sessions heartbeats slot = s.sessions heartbeats slot := rfl
    change s'.count heartbeats slot ≤ cap
    unfold State.count
    unfold State.used at hu
    omega

theorem oneSlot (s : State) : OneSlot s := by
  intro execution row hrow
  constructor
  case left =>
    intro e row' hrow'
    have hchange := changes s e execution
    rw [hrow, hrow'] at hchange
    cases hchange <;> rfl
  case right =>
    intro heartbeats slot cap ttlMs previous used s' hne hr
    cases reserved hr with
    | again held hl hslot =>
      obtain rfl := Option.some.inj (hrow.symm.trans hl)
      exact hne hslot.symm
    | created hl          => cases hrow.symm.trans hl

-- A row stays one of its slot along a run that keeps it.
theorem keeps_run (hrow : s.rows.lookup execution = some row) (h : Run.Along step (Keeps execution) s es) :
    ∃ row', (Run.run step s es).rows.lookup execution = some row' ∧ row'.slot = row.slot := by
  let I (t : State) : Prop := ∃ row', t.rows.lookup execution = some row' ∧ row'.slot = row.slot
  have hstep (t : State) (e : Event) (ht : I t) (hk : Keeps execution t e) : I (step t e) := by
    obtain ⟨row', hrow', hslot⟩ := ht
    obtain ⟨row'', hrow''⟩ := Option.isSome_iff_exists.mp hk
    exact ⟨row'', hrow'', ((oneSlot t execution row' hrow').left e row'' hrow'').trans hslot⟩
  exact h.invariant hstep ⟨row, hrow, rfl⟩

theorem repeats (s : State) : Repeats s := by
  intro heartbeats slot execution cap ttlMs previous used s₁ hr es halong s₂ hnot heartbeats' cap' ttlMs' previous' hc ht ht'
  have hrow : ∃ row, s₁.rows.lookup execution = some row ∧ row.slot = slot := by
    cases reserved hr with
    | again held hl hslot => exact ⟨held, hl, hslot⟩
    | created             => exact ⟨_, by rw [lookup_grant, if_pos rfl], rfl⟩
  obtain ⟨row, hrow, rfl⟩ := hrow
  obtain ⟨row', hrow', hslot⟩ := keeps_run hrow halong
  have hbounds : ¬(cap' < 0 ∨ ¬(0 < ttlMs' ∧ ttlMs' ≤ 300000)) := by omega
  have hheld : ¬(row'.slot ≠ row.slot ∨ row'.state = .exited) := by
    rintro (hne | hexited)
    · exact hne hslot
    · exact hnot row' hrow' hexited
  rw [State.reserveReading, if_neg hbounds, State.reserve, hrow']
  simp only [if_neg hheld]

theorem release_eq (h : s.release execution = (true, s')) :
    ∃ row, s'.rows.lookup execution = some row ∧ row.state = .exited := by
  unfold State.release at h
  split at h
  case h_2      => cases h
  case h_1 held =>
    split at h
    case isTrue  => cases h
    case isFalse =>
      cases h
      exact ⟨_, Finmap.lookup_insert _, rfl⟩

theorem staysReleased (s : State) : StaysReleased s := by
  intro execution s₁ hr es halong s₂
  let I (t : State) : Prop := ∀ row, t.rows.lookup execution = some row → row.state = .exited
  have hstep (t : State) (e : Event) (ht : I t) (hl : LeavesGone execution t e) : I (step t e) := by
    intro row hrow
    have hchange := changes t e execution
    generalize hbefore : t.rows.lookup execution = before at hchange
    rw [hrow] at hchange
    cases hchange with
    | same                                 => exact ht row hbefore
    | reserved heartbeats slot cap ttlMs previous he =>
      have hgone := hl hbefore
      rw [he] at hgone
      exact absurd rfl hgone
    | acknowledged before _ h              => cases (ht before hbefore).symm.trans h
    | appeared slot _ he hs                =>
      have hgone := hl hbefore
      rw [he] at hgone
      exact absurd (hgone rfl) hs
    | released                             => rfl
    | extended before                      => exact ht before hbefore
  obtain ⟨row, hrow, hexited⟩ := release_eq hr
  have hrun : I s₂ := halong.invariant hstep fun row' hrow' => Option.some.inj (hrow.symm.trans hrow') ▸ hexited
  refine ⟨hrun, fun slot hslot => ?_⟩
  unfold State.acknowledge
  cases hl : s₂.rows.lookup execution with
  | some held => simp only [hrun held hl]
  | none      =>
    rw [hl] at hslot
    exact if_pos (hslot.resolve_left (by simp))

theorem Listed.replaces (h : Listed s) : Replaces s := by
  intro heartbeats slot execution cap ttlMs previous used s' hl hr
  cases reserved hr with
  | again held hl'  => cases hl.symm.trans hl'
  | created         =>
    refine ⟨by rw [lookup_grant, if_pos rfl], fun id hne => ?_⟩
    rw [lookup_grant, if_neg hne]
    refine if_congr ?_ rfl rfl
    rw [mem_replaced]
    constructor
    case mp  =>
      rintro ⟨he, _, hrest⟩
      exact ⟨he, hrest⟩
    case mpr =>
      rintro ⟨he, hrow, hunseen⟩
      obtain ⟨row, hlookup, _⟩ := (Option.any_eq_true _ _).mp hrow
      exact ⟨he, h id row hlookup, hrow, hunseen⟩

theorem launchSlots_run (now : ℤ) (es : List Event) :
    let s := Run.run step (start now) es
    Capped s ∧ OneSlot s ∧ Repeats s ∧ StaysReleased s ∧ Replaces s := by
  intro s
  have h : Listed s := Listed.start.run
  exact ⟨h.capped, oneSlot s, repeats s, staysReleased s, h.replaces⟩

-- With its exited row gone a released execution is acknowledged into the slot and counts again; and a reserve whose row
-- is gone is not granted again if another has taken the slot.
theorem launchSlots_expired :
    let released := Run.run step (start 0) [.reserve [] "claude:one" "first" 1 1000 "", .acknowledge "first" "",
      .release "first", .pass 45000]
    let expired := Run.run step (start 0) [.reserve [] "claude:one" "first" 1 1000 "", .pass 1000]
    let taken := expired.reserve [] "claude:one" "second" 1 1000 ""
    (released.acknowledge "claude:one" "first").1 = true ∧
      (released.acknowledge "claude:one" "first").2.count [] "claude:one" = 1 ∧
      taken.1.1 = true ∧ (taken.2.reserve [] "claude:one" "first" 1 1000 "").1.1 = false := by
  decide +kernel

end Runs

end Reservation
