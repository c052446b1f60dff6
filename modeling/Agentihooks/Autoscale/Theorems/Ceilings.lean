import Agentihooks.Autoscale.Ceilings

namespace Autoscale

section Spread

variable {live demand : Counts} {s s' : Spread} {wanted : Counts} {lane : Lane}

theorem mem_lanes (lane : Lane) : lane ∈ lanes := by
  cases lane <;> decide

theorem asking_le (demand : Counts) (lane : Lane) : asking demand lane ≤ demand lane := by
  unfold asking
  split <;> omega

-- Seats are moved from the room to the ceilings.
theorem give_total : total (s.give wanted lane).ceilings + (s.give wanted lane).room = total s.ceilings + s.room := by
  cases lane <;> simp [Spread.give, total, Function.update] <;> omega

theorem le_give (l : Lane) : s.ceilings l ≤ (s.give wanted lane).ceilings l := by
  by_cases hl : l = lane
  case pos =>
    subst hl
    simp [Spread.give]
  case neg => simp [Spread.give, Function.update_of_ne hl]

-- What a pass of the loop gives.
theorem pass_some (h : pass live demand s = some s') :
    ∃ lane, 0 < s.room ∧ s.ceilings lane < live lane + demand lane ∧ s' = s.give (fun _ => 1) lane := by
  unfold pass at h
  split at h
  case isTrue     => cases h
  case isFalse hr =>
    obtain ⟨lane, hl, rfl⟩ := Option.map_eq_some_iff.mp h
    have hm : lane ∈ ready live demand s.ceilings := List.argmin_mem hl
    exact ⟨lane, Nat.pos_of_ne_zero hr, of_decide_eq_true (List.mem_filter.mp hm).right, rfl⟩

-- Where the loop ends, there is no room, or no lane that may take a seat.
theorem pass_none : pass live demand s = none ↔ s.room = 0 ∨ ∀ lane, live lane + demand lane ≤ s.ceilings lane := by
  unfold pass
  split
  case isTrue hr  => simp [hr]
  case isFalse hr =>
    simp only [Option.map_eq_none_iff, List.argmin_eq_none, ready, List.filter_eq_nil_iff, decide_eq_true_eq, not_lt, hr,
      false_or]
    exact ⟨fun h lane => h lane (mem_lanes lane), fun h lane _ => h lane⟩

-- The loop ends after as many passes as there are seats, or before.
theorem loop_ends (live demand : Counts) (s : Spread) (passes : ℕ) (h : s.room ≤ passes) : pass live demand (loop live demand passes s) = none := by
  induction passes generalizing s
  case zero           => exact pass_none.mpr (.inl (by simpa [loop] using h))
  case succ passes hi =>
    rw [loop]
    cases hp : pass live demand s with
    | none    => exact hp
    | some s' =>
      obtain ⟨lane, hpos, -, rfl⟩ := pass_some hp
      exact hi _ (by simp only [Spread.give]; omega)

-- What holds of a spread from the beginning of the loop to its end.
theorem loop_invariant (live demand : Counts) {P : Spread → Prop} (hs : ∀ s s', P s → pass live demand s = some s' → P s') (h : P s)
    (passes : ℕ) : P (loop live demand passes s) := by
  induction passes generalizing s
  case zero           => exact h
  case succ passes hi =>
    rw [loop]
    cases hp : pass live demand s with
    | none    => exact h
    | some s' => exact hi (hs s s' h hp)

theorem seated_total (room : ℕ) : total (seated live demand room).ceilings + (seated live demand room).room = room := by
  simp only [seated, lanes, List.foldl_cons, List.foldl_nil, give_total]
  simp [total]

theorem ceilings_total_le (live demand : Counts) (room : ℕ) : total (ceilings live demand room) ≤ room := by
  have h := loop_invariant live demand (s := seated live demand room)
    (P := fun s => total s.ceilings + s.room = room)
    (fun s s' h hp => by
      obtain ⟨lane, -, -, rfl⟩ := pass_some hp
      rwa [give_total])
    (seated_total room) (seated live demand room).room
  rw [ceilings]
  omega

theorem seated_ceilings (demand : Counts) {room : ℕ} (h : total live ≤ room) (lane : Lane) :
    live lane ≤ (seated live demand room).ceilings lane ∧
      (seated live demand room).ceilings lane ≤ live lane + asking demand lane ∧
        (total live + total (asking demand) ≤ room →
          (seated live demand room).ceilings lane = live lane + asking demand lane) := by
  unfold total at h ⊢
  cases lane <;> simp [seated, lanes, Spread.give, Function.update] <;> omega

theorem ceilings_fit (demand : Counts) {room : ℕ} (h : total live ≤ room) (lane : Lane) :
    live lane ≤ ceilings live demand room lane ∧ ceilings live demand room lane ≤ live lane + demand lane ∧
      (total live + total (asking demand) ≤ room → live lane + asking demand lane ≤ ceilings live demand room lane) := by
  have hle := loop_invariant live demand (s := seated live demand room)
    (P := fun s => ∀ lane, (seated live demand room).ceilings lane ≤ s.ceilings lane ∧
      s.ceilings lane ≤ live lane + demand lane)
    (fun s s' hs hp l => by
      obtain ⟨lane, -, hlt, rfl⟩ := pass_some hp
      refine ⟨(hs l).left.trans (le_give l), ?_⟩
      by_cases hl : l = lane
      case pos =>
        subst hl
        simp only [Spread.give, Function.update_self]
        omega
      case neg =>
        simp only [Spread.give, Function.update_of_ne hl]
        exact (hs l).right)
    (fun lane => ⟨le_rfl, (seated_ceilings demand h lane).right.left.trans (by have := asking_le demand lane; omega)⟩)
    (seated live demand room).room lane
  obtain ⟨hlow, -, hmin⟩ := seated_ceilings demand h lane
  refine ⟨hlow.trans hle.left, hle.right, fun hr => ?_⟩
  rw [← hmin hr]
  exact hle.left

end Spread

section Decisions

variable {previous : Option Decision} {i : Inputs} {start : Start} {is : List Inputs}

-- The target is above what the ceilings came to before.
def Above (previous : Option Decision) (i : Inputs) : Prop :=
  current previous i < i.target

theorem calculate_ceilings : (calculate previous i).ceilings = ceilings i.live i.demand (allowed previous i) := by
  simp only [calculate]

theorem target_le : i.target ≤ 50 := by
  unfold Inputs.target
  exact min_le_left _ _

theorem live_le_minimum : total i.live ≤ i.minimum := by
  unfold Inputs.minimum
  exact Nat.le_add_right _ _

theorem raised_le : raised previous i ≤ i.target := by
  unfold raised
  split
  case isTrue  => exact le_rfl
  case isFalse =>
    split
    case isTrue  => omega
    case isFalse => exact min_le_left _ _

theorem raised_le_current : raised previous i ≤ current previous i + 2 := by
  unfold raised
  split
  case isTrue  => omega
  case isFalse =>
    split
    case isTrue  => omega
    case isFalse => exact min_le_right _ _

-- A raise that is not held.
theorem above_of_raised (h : current previous i < raised previous i) : Above previous i ∧ held previous i = false := by
  unfold raised at h
  split at h
  case isTrue     => omega
  case isFalse ht =>
    split at h
    case isTrue     => omega
    case isFalse hh => exact ⟨not_le.mp ht, Bool.eq_false_iff.mpr hh⟩

theorem allowed_le : allowed previous i ≤ i.target :=
  max_le raised_le (min_le_left _ _)

theorem minimum_le_allowed (h : n ≤ i.target) (hn : n ≤ i.minimum) : n ≤ allowed previous i :=
  (le_min h hn).trans (le_max_right _ _)

-- The decision is made with a raise that is pending since a decision from which on the target was always above.
def Rising (start : Start) (is : List Inputs) : Prop :=
  let pending := prior (Run.run step start.decision is)
  pending.ticks ≠ 0 → ∃ before first after, is = before ++ first :: after ∧ pending.since = some first.nowMs ∧
    Run.Along step Above (Run.run step start.decision before) (first :: after)

theorem rising_start (start : Start) : Rising start [] := by
  intro h
  cases start <;> exact absurd rfl h

theorem pending_ticks (h : (pending previous i).ticks ≠ 0) :
    Above previous i ∧ (pending previous i).since = some (since previous i) := by
  unfold pending at h ⊢
  split at h
  case isTrue     => exact absurd rfl h
  case isFalse hn =>
    rw [if_neg hn]
    exact ⟨not_le.mp fun hle => hn (.inl hle), rfl⟩

-- Since when the target has been above the ceilings, if it is now.
theorem Rising.since (h : Rising start is) (ha : Above (Run.run step start.decision is) i) :
    ∃ before first after, is ++ [i] = before ++ first :: after ∧
      since (Run.run step start.decision is) i = first.nowMs ∧
        Run.Along step Above (Run.run step start.decision before) (first :: after) := by
  by_cases ht : (prior (Run.run step start.decision is)).ticks = 0
  case pos =>
    refine ⟨is, i, [], rfl, ?_, ha, trivial⟩
    rw [Autoscale.since]
    exact if_pos ht
  case neg =>
    obtain ⟨before, first, after, hi, hs, halong⟩ := h ht
    refine ⟨before, first, after ++ [i], by rw [hi]; simp, ?_, ?_⟩
    · rw [Autoscale.since, hs]
      exact if_neg ht
    · rw [← List.cons_append, Run.Along.append]
      refine ⟨halong, ?_, trivial⟩
      rwa [← Run.run_append, ← hi]

theorem rising_step (h : Rising start is) : Rising start (is ++ [i]) := by
  have hp : prior (Run.run step start.decision (is ++ [i])) = pending (Run.run step start.decision is) i := by
    rw [Run.run_concat]
    rfl
  rw [Rising, hp]
  intro ht
  obtain ⟨ha, hs⟩ := pending_ticks ht
  obtain ⟨before, first, after, hi, hsince, halong⟩ := h.since ha
  exact ⟨before, first, after, hi, by rw [hs, hsince], halong⟩

theorem rising (start : Start) (is : List Inputs) : Rising start is := by
  induction is using List.reverseRecOn
  case nil           => exact rising_start start
  case append_singleton hi => exact rising_step hi

-- Each decision of a run.
theorem calculate_bounded (start : Start) (is : List Inputs) (i : Inputs) :
    let previous := Run.run step start.decision is
    let c := (calculate previous i).ceilings
    total c ≤ i.target ∧ i.target ≤ 50 ∧
      (total i.live ≤ i.target → ∀ lane, i.live lane ≤ c lane ∧ c lane ≤ i.live lane + i.demand lane) ∧
      (i.minimum ≤ i.target → ∀ lane, 0 < i.demand lane → i.live lane + 1 ≤ c lane) ∧
      total c ≤ max (current previous i) i.minimum + 2 ∧
      (max (current previous i) i.minimum < total c → ∃ before first after, is ++ [i] = before ++ first :: after ∧
        first.nowMs + (raiseMs - slackMs) ≤ i.nowMs ∧
          Run.Along step Above (Run.run step start.decision before) (first :: after)) ∧
      pass i.live i.demand (loop i.live i.demand (seated i.live i.demand (allowed previous i)).room
        (seated i.live i.demand (allowed previous i))) = none := by
  intro previous c
  have hc : c = ceilings i.live i.demand (allowed previous i) := calculate_ceilings
  have htotal : total c ≤ allowed previous i := hc ▸ ceilings_total_le i.live i.demand (allowed previous i)
  have hcurrent : raised previous i ≤ current previous i + 2 := raised_le_current
  have hallowed : allowed previous i ≤ i.target := allowed_le
  have hends := loop_ends i.live i.demand (seated i.live i.demand (allowed previous i)) _ le_rfl
  refine ⟨htotal.trans hallowed, target_le, ?_, ?_, ?_, ?_, hends⟩
  · intro h lane
    have hroom : total i.live ≤ allowed previous i := minimum_le_allowed h live_le_minimum
    rw [hc]
    exact ⟨(ceilings_fit i.demand hroom lane).left, (ceilings_fit i.demand hroom lane).right.left⟩
  · intro h lane hd
    have hroom : i.minimum ≤ allowed previous i := minimum_le_allowed h le_rfl
    have hask : asking i.demand lane = 1 := if_neg (Nat.pos_iff_ne_zero.mp hd)
    have hfit := (ceilings_fit i.demand (live_le_minimum.trans hroom) lane).right.right hroom
    rwa [hask, ← hc] at hfit
  · unfold allowed at htotal
    omega
  · intro hlt
    have hraised : current previous i < raised previous i := by
      unfold allowed at htotal
      omega
    obtain ⟨ha, hheld⟩ := above_of_raised hraised
    obtain ⟨before, first, after, hi, hs, halong⟩ := (rising start is).since ha
    refine ⟨before, first, after, hi, ?_, halong⟩
    have hs : since previous i = first.nowMs := hs
    simp only [held, reached, hs, decide_not, decide_eq_true_eq, Bool.not_eq_false', decide_eq_true_eq] at hheld
    omega

end Decisions

end Autoscale
