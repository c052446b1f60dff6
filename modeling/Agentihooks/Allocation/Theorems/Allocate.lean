import Agentihooks.Allocation.Allocate
import Agentihooks.Allocation.Supply

-- Every allocation ends, gives no seat more than it has free and no lane more than its limit, and leaves no seat to
-- waste: it is a run of the turns of `Supply`.

namespace Allocation

variable {split : Split} {input : Input} {s s' : State} {lane l : Lane} {index i : ℕ} {seat x : Seat} {h : Harness}
  {offered seats held : List Seat} {allowed : Seat → Bool}

section Pick

theorem least_mem {α : Type} {less : α → α → Bool} {l : List α} {x : α} (h : least less l = some x) : x ∈ l := by
  cases l
  case nil => cases h
  case cons y l =>
    cases h
    refine List.foldlRecOn (motive := fun b => b ∈ y :: l) l _ List.mem_cons_self fun b hb z hz => ?_
    split
    case isTrue  => exact List.mem_cons_of_mem y hz
    case isFalse => exact hb

theorem least_eq_none {α : Type} {less : α → α → Bool} {l : List α} : least less l = none ↔ l = [] := by
  cases l <;> simp [least]

theorem freest_mem (h : freest seats = some x) : x ∈ seats ∧ x.free ≠ 0 := by
  have ⟨hm, hf⟩ := List.mem_filter.mp (least_mem h)
  exact ⟨hm, of_decide_eq_true hf⟩

theorem freest_eq_none : freest seats = none ↔ ∀ x ∈ seats, x.free = 0 := by
  simp [freest, least_eq_none, List.filter_eq_nil_iff]

theorem side_mem (hs : side split offered h allowed = some x) :
    x ∈ offered ∧ x.harness = h ∧ allowed x ∧ x.free ≠ 0 := by
  simp only [side, place] at hs
  split at hs
  case h_1 => cases hs
  case h_2 =>
    have ⟨hm, hf⟩ := freest_mem hs
    simp only [List.mem_filter, Bool.and_eq_true, decide_eq_true_iff] at hm
    exact ⟨hm.left, hm.right.left.left, hm.right.right, hf⟩
  case h_3 =>
    have ⟨hm, hf⟩ := freest_mem hs
    simp only [List.mem_filter, Bool.and_eq_true, decide_eq_true_iff] at hm
    exact ⟨hm.left.left.left, hm.left.left.right.left, hm.left.right, hf⟩

-- The split never gives the side that has no room while the other one has some.
theorem place_eq_none {api pool : List Seat} {weights : List ℚ} {live : ℕ} (h : place split api pool weights live = none) :
    (∀ x ∈ api, x.free = 0) ∧ ∀ x ∈ pool, x.free = 0 := by
  have pooled : freest (pool.filter fun x => x.free ≠ 0) = none → ∀ x ∈ pool, x.free = 0 := fun hn x hx =>
    Classical.byContradiction fun hf =>
      hf (freest_eq_none.mp hn x (List.mem_filter.mpr ⟨hx, decide_eq_true hf⟩))
  have closed : (api.any fun x => x.free ≠ 0) = false → ∀ x ∈ api, x.free = 0 := fun ha x hx => by
    simpa using List.any_eq_false.mp ha x hx
  simp only [place, chooseSide] at h
  split_ifs at h with ha hp hr hs
  case pos => exact ⟨by simp [ha], pooled h⟩
  case pos => exact ⟨freest_eq_none.mp h, pooled (hp ▸ rfl)⟩
  case neg => exact ⟨closed (Bool.eq_false_iff.mpr hr), pooled (hp ▸ rfl)⟩
  case pos => exact absurd (freest_eq_none.mp h) (by simpa using (Bool.and_eq_true _ _ |>.mp hs).right)
  case neg => exact absurd (least_eq_none.mp h) (by simpa [List.filter_filter] using hp)

theorem side_ne_none (hm : x ∈ offered) (ha : allowed x) (hf : x.free ≠ 0) : side split offered x.harness allowed ≠ none := by
  intro hs
  have ⟨hapi, hpool⟩ := place_eq_none hs
  by_cases hk : x.kind = .api
  case pos => exact hf (hapi x (by simp [hm, hk, ha]))
  case neg => exact hf (hpool x (by simp [hm, hk, ha]))

theorem pick_mem (hs : pick split offered allowed = some x) : x ∈ offered ∧ allowed x ∧ x.free ≠ 0 := by
  obtain ⟨harness, _, hm⟩ := List.mem_filterMap.mp (freest_mem hs).left
  have ⟨hm, _, ha, hf⟩ := side_mem hm
  exact ⟨hm, ha, hf⟩

theorem pick_ne_none (hm : x ∈ offered) (ha : allowed x) (hf : x.free ≠ 0) : pick split offered allowed ≠ none := by
  intro hs
  obtain ⟨y, hy⟩ := Option.ne_none_iff_exists'.mp (side_ne_none hm ha hf)
  refine (side_mem hy).right.right.right (freest_eq_none.mp hs y (List.mem_filterMap.mpr ⟨x.harness, ?_, hy⟩))
  exact List.mem_dedup.mpr (List.mem_map_of_mem hm)

end Pick

section Turns

theorem room_eq_zero : room input s lane index h = 0 ↔
    ∀ x ∈ s.held, x.harness = h → usable input lane index x → x.free = 0 := by
  simp only [room, List.sum_eq_zero_iff, List.mem_map, List.mem_filter, Bool.and_eq_true, decide_eq_true_iff]
  constructor
  case mp  => exact fun hz x hx hh hu => hz x.free ⟨x, ⟨hx, hh, hu⟩, rfl⟩
  case mpr =>
    rintro hz _ ⟨x, ⟨hx, hh, hu⟩, rfl⟩
    exact hz x hx hh hu

theorem readyIndex_some (h : readyIndex input s lane = some index) :
    s.effective lane < input.limits lane ∧ s.cursors lane ≤ index ∧ index < (input.options lane).length ∧
    (∃ harness ∈ input.choices lane index, room input s lane index harness ≠ 0) ∧
    ∀ i, s.cursors lane ≤ i → i < index → ∀ harness ∈ input.choices lane i, room input s lane i harness = 0 := by
  unfold readyIndex at h
  split_ifs at h with hl
  obtain ⟨hp, hm, hs⟩ := List.find?_range'_eq_some.mp h
  have hm := List.mem_range'_1.mp hm
  refine ⟨Nat.lt_of_not_le hl, hm.left, by omega, ?_, fun i hc hi harness hh => ?_⟩
  · simpa using hp
  · have := hs i hc hi
    simp only [Bool.not_eq_true', List.any_eq_false, decide_eq_true_iff, not_not] at this
    exact this harness hh

theorem readyIndex_none (h : readyIndex input s lane = none) (hl : s.effective lane < input.limits lane) :
    ∀ i, s.cursors lane ≤ i → i < (input.options lane).length →
      ∀ harness ∈ input.choices lane i, room input s lane i harness = 0 := by
  intro i hc hi harness hh
  unfold readyIndex at h
  rw [if_neg (Nat.not_le.mpr hl), List.find?_range'_eq_none] at h
  have := h i hc (by omega)
  simp only [Bool.not_eq_true', List.any_eq_false, decide_eq_true_iff, not_not] at this
  exact this harness hh

theorem mem_ready : (lane, index) ∈ ready input s ↔ readyIndex input s lane = some index := by
  simp only [ready, List.mem_filterMap, Option.map_eq_some_iff, Prod.mk.injEq]
  constructor
  case mp =>
    rintro ⟨_, _, _, hi, rfl, rfl⟩
    exact hi
  case mpr => exact fun hi => ⟨lane, by cases lane <;> decide, index, hi, rfl, rfl⟩

theorem mem_wanted (hh : h ∈ wanted input s lane index) :
    h ∈ input.choices lane index ∧ room input s lane index h ≠ 0 := by
  have eligible : h ∈ (input.choices lane index).filter fun harness => room input s lane index harness ≠ 0 := by
    unfold wanted at hh
    simp only at hh
    split_ifs at hh
    case pos => exact hh
    case neg => exact List.mem_of_mem_filter hh
  have ⟨hm, hr⟩ := List.mem_filter.mp eligible
  exact ⟨hm, of_decide_eq_true hr⟩

theorem wanted_ne_nil (hm : h ∈ input.choices lane index) (hr : room input s lane index h ≠ 0) :
    wanted input s lane index ≠ [] := by
  unfold wanted
  simp only
  split_ifs with hs
  case pos => exact List.ne_nil_of_mem (List.mem_filter.mpr ⟨hm, decide_eq_true hr⟩)
  case neg => exact hs

-- A seat that a turn may give to the task under the index.
structure Places (input : Input) (s : State) (lane : Lane) (index : ℕ) (seat : Seat) : Prop where
  below   : s.effective lane < input.limits lane
  cursor  : s.cursors lane ≤ index
  inside  : index < (input.options lane).length
  skipped : ∀ i, s.cursors lane ≤ i → i < index → ∀ harness ∈ input.choices lane i, room input s lane i harness = 0
  held    : seat ∈ s.held
  free    : seat.free ≠ 0
  allowed : usable input lane index seat
  chosen  : seat.harness ∈ wanted input s lane index

theorem turn_cases (split : Split) (input : Input) (s : State) :
    (turn split input s = .ended ∧ ∀ lane, s.effective lane < input.limits lane → ∀ i, s.cursors lane ≤ i →
      i < (input.options lane).length → ∀ harness ∈ input.choices lane i, room input s lane i harness = 0) ∨
    ∃ lane index seat, turn split input s = .placed (s.place lane index seat) ∧ Places input s lane index seat := by
  unfold turn
  split
  case h_1 hr =>
    refine .inl ⟨rfl, fun lane hl => readyIndex_none ?_ hl⟩
    refine Option.eq_none_iff_forall_ne_some.mpr fun index hi => ?_
    rw [least_eq_none] at hr
    exact absurd (mem_ready.mpr hi) (hr ▸ List.not_mem_nil)
  case h_2 lane index hr =>
    obtain ⟨hl, hc, hi, ⟨harness, hh, hn⟩, hs⟩ := readyIndex_some (mem_ready.mp (least_mem hr))
    obtain ⟨k, hk⟩ := List.exists_mem_of_ne_nil _ (wanted_ne_nil hh hn)
    have hroom := (mem_wanted hk).right
    rw [Ne, room_eq_zero] at hroom
    push Not at hroom
    obtain ⟨x, hx, rfl, hu, hf⟩ := hroom
    split
    case h_1 hp =>
      exact absurd hp (pick_ne_none hx (by simp [hk, hu]) hf)
    case h_2 seat hp =>
      have ⟨hm, ha, hf⟩ := pick_mem hp
      rw [Bool.and_eq_true, decide_eq_true_iff] at ha
      exact .inr ⟨lane, index, seat, rfl, hl, hc, hi, hs, hm, hf, ha.right, ha.left⟩

end Turns

-- The placements on a seat.
def used (s : State) (key : Harness × String) : ℕ :=
  (lanes.map fun lane => (s.placements lane).countP fun p => (p.harness, p.account) = key).sum

def Seat.filled (seat : Seat) (n : ℕ) : Seat :=
  { seat with sessions := seat.sessions + n }

@[simp]
theorem Seat.key_filled {n : ℕ} : (seat.filled n).key = seat.key :=
  rfl

@[simp]
theorem Seat.harness_filled {n : ℕ} : (seat.filled n).harness = seat.harness :=
  rfl

theorem Seat.filled_filled {n m : ℕ} : (seat.filled n).filled m = seat.filled (n + m) := by
  simp [filled, Nat.add_assoc]

theorem Seat.free_filled {n : ℕ} : (seat.filled n).free = seat.free - n := by
  simp only [free, filled]
  omega

section Place

theorem mem_lanes (lane : Lane) : lane ∈ lanes := by
  cases lane <;> decide

theorem nodup_lanes : lanes.Nodup := by
  decide

theorem used_place {key : Harness × String} :
    used (s.place lane index seat) key = used s key + if seat.key = key then 1 else 0 := by
  rw [used, used, ← Sums.map_key (a := if seat.key = key then 1 else 0) nodup_lanes (mem_lanes lane),
    ← List.sum_map_add]
  refine Sums.map_congr fun i _ => ?_
  by_cases hi : lane = i
  case pos =>
    subst hi
    by_cases hk : seat.key = key <;> simp_all [State.place, Seat.key]
  case neg => simp [State.place, Function.update_of_ne (Ne.symm hi), hi]

theorem put_held (h : seat.key ∈ held.map Seat.key) :
    put held seat = held.map fun x => if x.key = seat.key then seat else x := by
  have hm : held.any fun x => x.key = seat.key := by simpa using h
  rw [put, if_pos hm]

theorem put_fresh (h : seat.key ∉ held.map Seat.key) : put held seat = held ++ [seat] := by
  have hm : ¬ held.any fun x => x.key = seat.key := by simpa using h
  rw [put, if_neg hm]

theorem foldl_put (h : ((held ++ seats).map Seat.key).Nodup) : seats.foldl put held = held ++ seats := by
  induction seats generalizing held
  case nil => simp
  case cons seat seats hi =>
    have hf : seat.key ∉ held.map Seat.key := by
      rw [List.map_append, List.map_cons, List.nodup_append] at h
      exact fun hm => h.right.right _ hm _ List.mem_cons_self rfl
    rw [List.foldl_cons, put_fresh hf, hi (by simpa using h)]
    simp

end Place

-- What holds of the locals at each turn.
structure Good (input : Input) (s : State) : Prop where
  held      : s.held = input.seats.map fun x => x.filled (used s x.key)
  fits      : ∀ x ∈ input.seats, used s x.key ≤ x.free
  effective : ∀ lane, s.effective lane = input.effective lane + (s.placements lane).length
  limit     : ∀ lane, s.placements lane ≠ [] → s.effective lane ≤ input.limits lane
  cursor    : ∀ lane, ∀ p ∈ s.placements lane, p.index < s.cursors lane
  last      : ∀ lane, s.cursors lane = 0 ∨ ∃ p ∈ s.placements lane, p.index + 1 = s.cursors lane
  ordered   : ∀ lane, (s.placements lane).Pairwise fun p q => p.index < q.index
  legal     : ∀ lane, ∀ p ∈ s.placements lane, p.index < (input.options lane).length ∧
    p.harness ∈ input.choices lane p.index ∧
    ∃ x ∈ input.seats, x.key = (p.harness, p.account) ∧ usable input lane p.index x
  counted   : ∀ lane harness, s.allocation lane harness = (s.placements lane).countP (·.harness = harness)

theorem good_start (hn : (input.seats.map Seat.key).Nodup) : Good input (start input) where
  held := by
    have hs : input.seats.foldl put [] = input.seats := foldl_put hn
    simp [start, hs, used, lanes, Seat.filled]
  fits      := by simp [start, used, lanes]
  effective := by simp [start]
  limit     := by simp [start]
  cursor    := by simp [start]
  last      := by simp [start]
  ordered   := by simp [start]
  legal     := by simp [start]
  counted   := by simp [start]

theorem usable_key (hk : seat.key = x.key) : usable input lane index seat = usable input lane index x := by
  simp only [usable, hk]

section Placing

variable (hn : (input.seats.map Seat.key).Nodup) (good : Good input s) (places : Places input s lane index seat)
include good places

-- The seat that is given is one of those that came in, with what was placed on it.
theorem Places.source : ∃ x ∈ input.seats, seat = x.filled (used s x.key) := by
  have hm := places.held
  rw [good.held] at hm
  obtain ⟨x, hx, rfl⟩ := List.mem_map.mp hm
  exact ⟨x, hx, rfl⟩

include hn

theorem Places.held_eq : (s.place lane index seat).held =
    input.seats.map fun x => x.filled (used (s.place lane index seat) x.key) := by
  obtain ⟨y, hy, rfl⟩ := places.source good
  have hm : ((y.filled (used s y.key)).filled 1).key ∈ s.held.map Seat.key :=
    List.mem_map_of_mem (f := Seat.key) (a := y.filled (used s y.key)) places.held
  have hp : (s.place lane index (y.filled (used s y.key))).held = put s.held ((y.filled (used s y.key)).filled 1) := rfl
  rw [hp, put_held hm, good.held, List.map_map]
  refine List.map_congr_left fun x hx => ?_
  rw [used_place]
  by_cases hk : y.key = x.key
  case pos =>
    obtain rfl := List.inj_on_of_nodup_map hn hy hx hk
    simp [Seat.filled_filled]
  case neg => simp [hk, Ne.symm hk]

theorem Places.keeps : Good input (s.place lane index seat) where
  held := places.held_eq hn good
  fits x hx := by
    obtain ⟨y, hy, rfl⟩ := places.source good
    have := good.fits x hx
    have hf := places.free
    rw [Seat.free_filled] at hf
    rw [used_place]
    split_ifs with hk
    case pos =>
      obtain rfl := List.inj_on_of_nodup_map hn hy hx hk
      omega
    case neg => exact this
  effective l := by
    have := good.effective l
    by_cases hl : l = lane
    case pos =>
      subst hl
      simp [State.place]
      omega
    case neg => simpa [State.place, Function.update_of_ne hl] using this
  limit l hp := by
    by_cases hl : l = lane
    case pos =>
      subst hl
      simpa [State.place] using Nat.succ_le_of_lt places.below
    case neg =>
      simp only [State.place, Function.update_of_ne hl] at hp ⊢
      exact good.limit l hp
  cursor l p hp := by
    by_cases hl : l = lane
    case pos =>
      subst hl
      simp only [State.place, Function.update_self, List.mem_append, List.mem_singleton] at hp ⊢
      obtain hp | rfl := hp
      · have := good.cursor l p hp
        have := places.cursor
        omega
      · exact Nat.lt_succ_self _
    case neg =>
      simp only [State.place, Function.update_of_ne hl] at hp ⊢
      exact good.cursor l p hp
  last l := by
    by_cases hl : l = lane
    case pos =>
      subst hl
      exact .inr ⟨⟨index, seat.harness, seat.account⟩, by simp [State.place], by simp [State.place]⟩
    case neg => simpa [State.place, Function.update_of_ne hl] using good.last l
  ordered l := by
    by_cases hl : l = lane
    case pos =>
      subst hl
      simp only [State.place, Function.update_self, List.pairwise_append, List.mem_singleton]
      refine ⟨good.ordered l, List.pairwise_singleton _ _, ?_⟩
      rintro p hp _ rfl
      exact (good.cursor l p hp).trans_le places.cursor
    case neg => simpa [State.place, Function.update_of_ne hl] using good.ordered l
  legal l p hp := by
    by_cases hl : l = lane
    case pos =>
      subst hl
      simp only [State.place, Function.update_self, List.mem_append, List.mem_singleton] at hp
      obtain hp | rfl := hp
      · exact good.legal l p hp
      · obtain ⟨y, hy, rfl⟩ := places.source good
        exact ⟨places.inside, (mem_wanted places.chosen).left, y, hy, rfl, (usable_key rfl).symm.trans places.allowed⟩
    case neg =>
      simp only [State.place, Function.update_of_ne hl] at hp
      exact good.legal l p hp
  counted l harness := by
    by_cases hl : l = lane
    case pos =>
      subst hl
      simp only [State.place, Function.update_self, List.countP_append, List.countP_singleton, decide_eq_true_iff]
      by_cases hh : harness = seat.harness
      case pos => simp [hh, good.counted]
      case neg => simp [Function.update_of_ne hh, Ne.symm hh, good.counted]
    case neg => simpa [State.place, Function.update_of_ne hl] using good.counted l harness

end Placing

section Loop

def Ended (input : Input) (s : State) : Prop :=
  ∀ lane, s.effective lane < input.limits lane → ∀ i, s.cursors lane ≤ i → i < (input.options lane).length →
    ∀ harness ∈ input.choices lane i, room input s lane i harness = 0

-- The places that the lanes have below their limits.
def openPlaces (input : Input) (s : State) : ℕ :=
  (lanes.map fun lane => input.limits lane - s.effective lane).sum

theorem Places.openPlaces_place (places : Places input s lane index seat) :
    openPlaces input s = openPlaces input (s.place lane index seat) + 1 := by
  have := places.below
  rw [openPlaces, openPlaces, ← Sums.map_key (a := 1) nodup_lanes (mem_lanes lane), ← List.sum_map_add]
  refine Sums.map_congr fun i _ => ?_
  by_cases hi : lane = i
  case pos =>
    subst hi
    simp [State.place]
    omega
  case neg => simp [State.place, Function.update_of_ne (Ne.symm hi), hi]

-- What each placement keeps holds at the end, and the end comes.
theorem loop_spec {P : State → Prop} {n : ℕ} (hf : openPlaces input s < n) (hs : P s)
    (step : ∀ s lane index seat, P s → Places input s lane index seat → P (s.place lane index seat)) :
    ∃ s', loop split input n s = some s' ∧ P s' ∧ Ended input s' := by
  induction n generalizing s
  case zero => omega
  case succ n hi =>
    rw [loop]
    obtain ⟨he, hend⟩ | ⟨lane, index, seat, he, places⟩ := turn_cases split input s
    · rw [he]
      exact ⟨s, rfl, hs, hend⟩
    · rw [he]
      refine hi ?_ (step s lane index seat hs places)
      have := places.openPlaces_place
      omega

end Loop

def other : Harness → Harness
  | .claude => .codex
  | .codex  => .claude

section View

-- The seats of either harness and the tasks from the cursors on.
def view (input : Input) (s : State) : Supply.View Lane Harness where
  stock     := remaining s
  todo lane := (input.options lane).drop (s.cursors lane)
  left lane := input.limits lane - s.effective lane

-- A task for either harness was given `h`.
def Shared (input : Input) (s : State) (h : Harness) : Prop :=
  ∃ lane, ∃ p ∈ s.placements lane, p.harness = h ∧ other h ∈ input.choices lane p.index

-- A task that needs `h` was passed over.
def Passed (input : Input) (s : State) (h : Harness) : Prop :=
  ∃ lane i, i < s.cursors lane ∧ (input.options lane)[i]? = some [h] ∧ ∀ p ∈ s.placements lane, p.index ≠ i

-- What the law is about: tasks that any seat of their harnesses will do for, in lanes that are not over their limits, and
-- each naming one harness, or both.
structure Ordinary (input : Input) : Prop where
  accounts : ∀ lane index, input.accounts lane index = none
  counts   : ∀ lane, input.effective lane ≤ input.limits lane
  options  : ∀ lane, ∀ task ∈ input.options lane, task ≠ [] ∧ task.Nodup

theorem plain_of_nodup {task : List Harness} (hn : task ≠ []) (hd : task.Nodup) : Supply.Plain h (other h) task := by
  have one : ∀ k : Harness, k = h ∨ k = other h := fun k => by cases h <;> cases k <;> decide
  match task with
  | []  => exact absurd rfl hn
  | [a] => exact (one a).imp (congrArg fun k => [k]) fun he => .inl (congrArg (fun k => [k]) he)
  | a :: b :: rest =>
    have hab : a ≠ b := fun he => (List.nodup_cons.mp hd).left (he ▸ List.mem_cons_self)
    refine .inr (.inr ?_)
    obtain rfl | rfl := one a <;> obtain hb | hb := one b
    · exact absurd hb.symm hab
    · simp [hb]
    · simp [hb]
    · exact absurd hb.symm hab

theorem room_eq_remaining (ho : Ordinary input) : room input s lane index h = remaining s h := by
  simp [room, remaining, usable, ho.accounts]

theorem Good.below (good : Good input s) (lane : Lane) (ho : Ordinary input) : s.effective lane ≤ input.limits lane := by
  by_cases hp : s.placements lane = []
  case pos =>
    have := ho.counts lane
    rw [good.effective, hp]
    simpa using this
  case neg => exact good.limit lane hp

theorem reserved_eq_bound (hb : ∀ lane, s.effective lane ≤ input.limits lane) :
    reserved input s h = (view input s).bound lanes h := by
  refine Sums.map_congr fun lane _ => ?_
  have hl : ((s.cursors lane + input.limits lane : ℤ) - s.effective lane) =
      ((s.cursors lane + (input.limits lane - s.effective lane) : ℕ) : ℤ) := by
    have := hb lane
    omega
  rw [future, slice, hl, if_neg (by omega), Int.toNat_natCast, List.drop_take, Nat.add_sub_cancel_left]
  rfl

theorem remaining_eq (good : Good input s) :
    remaining s h = (input.seats.map fun x => if x.harness = h then x.free - used s x.key else 0).sum := by
  rw [remaining, good.held, Sums.map_filter, List.map_map]
  exact Sums.map_congr fun x _ => by simp [Seat.free_filled]

variable (hn : (input.seats.map Seat.key).Nodup) (good : Good input s) (places : Places input s lane index seat)
include hn good places

theorem Places.remaining_eq :
    remaining s h = remaining (s.place lane index seat) h + if seat.harness = h then 1 else 0 := by
  obtain ⟨y, hy, he⟩ := places.source good
  have hk : seat.key = y.key := he ▸ rfl
  have good' := places.keeps hn good
  have hm : y.key ∈ input.seats.map Seat.key := List.mem_map_of_mem hy
  rw [Allocation.remaining_eq good, Allocation.remaining_eq good',
    ← Sums.map_key (a := if seat.harness = h then 1 else 0) hn hm, List.map_map, ← List.sum_map_add]
  refine Sums.map_congr fun x hx => ?_
  have hf := good'.fits x hx
  rw [used_place, hk] at hf
  rw [used_place, hk, Function.comp_apply]
  by_cases hx' : y.key = x.key
  case pos =>
    have hh : x.harness = seat.harness := (congrArg Prod.fst (hk.trans hx')).symm
    rw [if_pos hx'] at hf
    rw [if_pos hx', if_pos hx', hh]
    split_ifs <;> omega
  case neg => simp [hx']

theorem Places.view_place : view input (s.place lane index seat) =
    (view input s).taken lane ((input.options lane).drop (index + 1)) seat.harness := by
  refine congr (congr (congrArg Supply.View.mk ?_) ?_) ?_
  · funext h
    have := places.remaining_eq hn good (h := h)
    by_cases hh : h = seat.harness
    case pos =>
      subst hh
      simp only [Function.update_self, view]
      rw [if_pos rfl] at this
      omega
    case neg =>
      rw [if_neg (Ne.symm hh)] at this
      simp only [Function.update_of_ne hh, view]
      omega
  · funext l
    by_cases hl : l = lane
    case pos =>
      subst hl
      simp [State.place]
    case neg => simp [State.place, view, Function.update_of_ne hl]
  · funext l
    by_cases hl : l = lane
    case pos =>
      subst hl
      simp only [State.place, view, Function.update_self]
      omega
    case neg => simp [State.place, view, Function.update_of_ne hl]

theorem Places.turn (ho : Ordinary input) : Supply.Turn lanes (view input s) lane
    (((input.options lane).drop (s.cursors lane)).take (index - s.cursors lane)) (input.choices lane index)
    ((input.options lane).drop (index + 1)) seat.harness := by
  have hc := places.cursor
  have hi := places.inside
  have hd : input.choices lane index :: (input.options lane).drop (index + 1) = (input.options lane).drop index := by
    rw [List.drop_eq_getElem_cons hi, Input.choices, List.getElem?_eq_getElem hi]
    rfl
  have hw := mem_wanted places.chosen
  rw [room_eq_remaining ho] at hw
  constructor
  case lane  => exact mem_lanes lane
  case left  => exact Nat.sub_pos_of_lt places.below
  case mem   => exact hw.left
  case stock => exact Nat.pos_of_ne_zero hw.right
  case todo =>
    rw [hd]
    have ht := List.take_append_drop (index - s.cursors lane) ((input.options lane).drop (s.cursors lane))
    rw [List.drop_drop, Nat.add_sub_cancel' hc] at ht
    exact ht.symm
  case barren =>
    intro task hm h hh
    obtain ⟨j, hj, rfl⟩ := List.mem_take_iff_getElem.mp hm
    have hj' : s.cursors lane + j < (input.options lane).length := by
      rw [List.length_drop] at hj
      omega
    have hz := places.skipped (s.cursors lane + j) (Nat.le_add_right _ _) (by omega) h ?_
    · exact (room_eq_remaining ho).symm.trans hz
    · rw [List.getElem_drop] at hh
      rwa [Input.choices, List.getElem?_eq_getElem hj']
  case spare =>
    have hm : (view input s).moved lane (input.choices lane index :: (input.options lane).drop (index + 1)) =
        view input (s.moved lane index) := by
      rw [hd]
      refine congrArg (Supply.View.mk _ · _) (funext fun l => ?_)
      by_cases hl : l = lane
      case pos =>
        subst hl
        simp [State.moved]
      case neg => simp [State.moved, view, Function.update_of_ne hl]
    have hb : ∀ k, (view input (s.moved lane index)).bound lanes k = reserved input (s.moved lane index) k := by
      intro k
      rw [reserved_eq_bound]
      exact fun l => good.below l ho
    rw [hm]
    simp only [hb]
    have hch := places.chosen
    unfold wanted at hch
    simp only [room_eq_remaining ho] at hch
    split_ifs at hch with hs
    case pos =>
      refine .inr fun k hk hp => Nat.le_of_not_lt fun hl => ?_
      rw [List.filter_eq_nil_iff] at hs
      exact hs k (List.mem_filter.mpr ⟨hk, decide_eq_true hp.ne'⟩) (decide_eq_true hl)
    case neg => exact .inl (of_decide_eq_true (List.mem_filter.mp hch).right)

omit hn good places in
theorem shared_place (hw : Shared input (s.place lane index seat) h) :
    Shared input s h ∨ seat.harness = h ∧ other h ∈ input.choices lane index := by
  obtain ⟨l, p, hp, hh, ho⟩ := hw
  by_cases hl : l = lane
  case pos =>
    subst hl
    simp only [State.place, Function.update_self, List.mem_append, List.mem_singleton] at hp
    obtain hp | rfl := hp
    · exact .inl ⟨l, p, hp, hh, ho⟩
    · exact .inr ⟨hh, ho⟩
  case neg =>
    simp only [State.place, Function.update_of_ne hl] at hp
    exact .inl ⟨l, p, hp, hh, ho⟩

omit hn good in
theorem Places.passed_place (hw : Passed input (s.place lane index seat) h) :
    Passed input s h ∨ [h] ∈ ((input.options lane).drop (s.cursors lane)).take (index - s.cursors lane) := by
  obtain ⟨l, i, hi, ht, hp⟩ := hw
  by_cases hl : l = lane
  case pos =>
    subst hl
    simp only [State.place, Function.update_self, List.mem_append, List.mem_singleton] at hi hp
    have hne : i ≠ index := fun he => hp _ (.inr rfl) he.symm
    by_cases hc : i < s.cursors l
    case pos => exact .inl ⟨l, i, hc, ht, fun p hm => hp p (.inl hm)⟩
    case neg =>
      refine .inr (List.mem_of_getElem? (i := i - s.cursors l) ?_)
      rw [List.getElem?_take_of_lt (by omega), List.getElem?_drop, Nat.add_sub_cancel' (by omega), ht]
  case neg =>
    simp only [State.place, Function.update_of_ne hl] at hi hp
    exact .inl ⟨l, i, hi, ht, hp⟩

end View

def Law (input : Input) (s : State) : Prop :=
  ∀ h, Supply.Kept lanes h (other h) (view input s) (Shared input s h) (Passed input s h)

theorem other_ne : h ≠ other h := by
  cases h <;> decide

theorem law_start : Law input (start input) := by
  intro h
  constructor
  case out =>
    rintro ⟨_, _, hi, _⟩
    exact absurd hi (Nat.not_lt_zero _)
  case spare =>
    rintro ⟨_, _, hp, _⟩
    exact absurd hp List.not_mem_nil

theorem plain_todo (ho : Ordinary input) : ∀ l, ∀ task ∈ (view input s).todo l, Supply.Plain h (other h) task := by
  intro l task hm
  have ht := ho.options l task (List.mem_of_mem_drop hm)
  exact plain_of_nodup ht.left ht.right

theorem Places.law (hn : (input.seats.map Seat.key).Nodup) (good : Good input s)
    (places : Places input s lane index seat) (ho : Ordinary input) (law : Law input s) :
    Law input (s.place lane index seat) := by
  intro h
  rw [places.view_place hn good]
  exact ((places.turn hn good ho).kept (plain_todo ho) nodup_lanes other_ne (law h)).mono shared_place
    places.passed_place

-- The task under the index was not placed: it was passed over, or left out with the lane below its limit.
def Unserved (input : Input) (s : State) (lane : Lane) (i : ℕ) : Prop :=
  (∀ p ∈ s.placements lane, p.index ≠ i) ∧
  ((∃ p ∈ s.placements lane, i < p.index) ∨ input.effective lane + (s.placements lane).length < input.limits lane)

-- If a task that needs a harness goes without, then the seats of the other one that shared tasks did not get are none.
def Unwasted (input : Input) (s : State) : Prop :=
  ∀ h lane i, (input.options lane)[i]? = some [h] → Unserved input s lane i →
    ∀ l, ∀ p ∈ s.placements l, p.harness = h → other h ∈ input.choices l p.index →
      ∀ x ∈ input.seats, x.harness = other h → used s x.key = x.free

-- What an allocation comes to.
structure Allocated (input : Input) (s : State) : Prop where
  seats   : ∀ x ∈ input.seats, used s x.key ≤ x.free
  lanes   : ∀ lane, s.placements lane ≠ [] →
    input.effective lane + (s.placements lane).length ≤ input.limits lane
  ordered : ∀ lane, (s.placements lane).Pairwise fun p q => p.index < q.index
  legal   : ∀ lane, ∀ p ∈ s.placements lane, p.index < (input.options lane).length ∧
    p.harness ∈ input.choices lane p.index ∧
    ∃ x ∈ input.seats, x.key = (p.harness, p.account) ∧ usable input lane p.index x
  counted : ∀ lane harness, s.allocation lane harness = (s.placements lane).countP (·.harness = harness)
  spent   : ∀ lane, input.effective lane + (s.placements lane).length < input.limits lane →
    ∀ i < (input.options lane).length, (∀ p ∈ s.placements lane, p.index < i) →
      ∀ x ∈ input.seats, x.harness ∈ input.choices lane i → usable input lane i x → used s x.key = x.free

theorem Good.cursor_le (good : Good input s) (hp : ∀ p ∈ s.placements lane, p.index < i) : s.cursors lane ≤ i := by
  obtain hc | ⟨p, hm, hc⟩ := good.last lane
  · omega
  · have := hp p hm
    omega

theorem Good.allocated (good : Good input s) (he : Ended input s) : Allocated input s where
  seats      := good.fits
  lanes l hp := good.effective l ▸ good.limit l hp
  ordered    := good.ordered
  legal      := good.legal
  counted    := good.counted
  spent l hl i hi hp x hx hh hu := by
    have hz := room_eq_zero.mp (he l (good.effective l ▸ hl) i (good.cursor_le hp) hi x.harness hh)
      (x.filled (used s x.key)) (good.held ▸ List.mem_map_of_mem hx) rfl ((usable_key rfl).trans hu)
    rw [Seat.free_filled] at hz
    have := good.fits x hx
    omega

theorem Good.unwasted (good : Good input s) (he : Ended input s) (ho : Ordinary input) (law : Law input s) :
    Unwasted input s := by
  intro h lane i ht hu l p hp hh hs x hx hx'
  refine Classical.byContradiction fun hne => ?_
  have hfree : 0 < (view input s).stock (other h) := by
    refine Nat.pos_of_ne_zero fun hz => hne ?_
    have hz : room input s lane i (other h) = 0 := (room_eq_remaining ho).trans hz
    have := room_eq_zero.mp hz (x.filled (used s x.key)) (good.held ▸ List.mem_map_of_mem hx) hx' (by simp [usable, ho.accounts])
    rw [Seat.free_filled] at this
    have := good.fits x hx
    omega
  have ended : (view input s).Ended lanes := by
    intro l _ hl task hm k hk
    obtain ⟨j, hj, rfl⟩ := List.getElem_of_mem hm
    have hj : j < (input.options l).length - s.cursors l := hj.trans_eq List.length_drop
    have hi : s.cursors l + j < (input.options l).length := by omega
    refine (room_eq_remaining ho).symm.trans (he l (Nat.lt_of_sub_pos hl) (s.cursors l + j) (Nat.le_add_right _ _) hi k ?_)
    rw [Input.choices, List.getElem?_eq_getElem hi]
    simpa [view] using hk
  have ⟨hq, hr⟩ := (law h).ended ended (plain_todo ho) ⟨l, p, hp, hh, hs⟩ hfree
  by_cases hc : i < s.cursors lane
  case pos => exact hq ⟨lane, i, hc, ht, hu.left⟩
  case neg =>
    have hl : input.effective lane + (s.placements lane).length < input.limits lane := by
      obtain ⟨q, hm, hi⟩ | hl := hu.right
      · exact absurd (good.cursor lane q hm) (by omega)
      · exact hl
    refine hr lane (mem_lanes lane) (Nat.sub_pos_of_lt (good.effective lane ▸ hl)) (List.mem_of_getElem? (i := i - s.cursors lane) ?_)
    have hv : (view input s).todo lane = (input.options lane).drop (s.cursors lane) := rfl
    rw [hv, List.getElem?_drop, Nat.add_sub_cancel' (by omega), ht]

theorem allocate_allocates (split : Split) (input : Input) (hn : (input.seats.map Seat.key).Nodup) :
    ∃ s, allocate split input = some s ∧ Allocated input s ∧ (Ordinary input → Unwasted input s) := by
  have step : ∀ s lane index seat, (Good input s ∧ (Ordinary input → Law input s)) → Places input s lane index seat →
      Good input (s.place lane index seat) ∧ (Ordinary input → Law input (s.place lane index seat)) :=
    fun s lane index seat hs places => ⟨places.keeps hn hs.left, fun ho => places.law hn hs.left ho (hs.right ho)⟩
  obtain ⟨s, he, hs, hend⟩ := loop_spec (Nat.lt_succ_self _) ⟨good_start hn, fun _ => law_start⟩ step
  have ⟨good, law⟩ := hs
  exact ⟨s, he, good.allocated hend, fun ho => good.unwasted hend ho (law ho)⟩

section Examples

def seatOf (harness : Harness) (account : String) (cap : ℤ) : Seat :=
  ⟨harness, account, cap, 0, none, .subscription, none⟩

-- `eng` has a task for either harness, `ci` is given its own tasks and limit and `plan` its own tasks and workers.
def inputOf (seats : List Seat) (ci plan : List (List Harness)) (limit workers : ℕ) : Input where
  agents _     := none
  effective    := fun | .plan => workers | _ => 0
  limits       := fun | .eng => 1 | .ci => limit | .plan => 0
  seats        := seats
  requirements := some fun | .eng => [harnesses] | .ci => ci | .plan => plan
  accounts _ _ := none

def pair : List Seat :=
  [seatOf .claude "a" 1, seatOf .codex "b" 1]

theorem allocate_allocates_pair : ∃ s, allocate (fun _ _ _ => false) (inputOf pair [[.claude]] [] 1 0) = some s ∧
    Allocated (inputOf pair [[.claude]] [] 1 0) s ∧ Unwasted (inputOf pair [[.claude]] [] 1 0) s := by
  obtain ⟨s, hs, ha, hw⟩ := allocate_allocates (fun _ _ _ => false) (inputOf pair [[.claude]] [] 1 0) (by decide)
  refine ⟨s, hs, ha, hw ⟨fun _ _ => rfl, fun lane => ?_, fun lane => ?_⟩⟩
  · cases lane <;> decide
  · cases lane <;> decide

-- Seats go to waste where a lane has more workers than its limit, whose tasks count as still to come then, where a task
-- names no harness and is passed over, and where one names its harness twice.
theorem allocate_wastes :
    (∃ s, allocate (fun _ _ _ => false) (inputOf pair [[.claude]] [[.codex], harnesses, harnesses, harnesses] 1 3) = some s ∧
      ¬ Unwasted (inputOf pair [[.claude]] [[.codex], harnesses, harnesses, harnesses] 1 3) s) ∧
    (∃ s, allocate (fun _ _ _ => false) (inputOf pair [[], [.claude]] [] 1 0) = some s ∧
      ¬ Unwasted (inputOf pair [[], [.claude]] [] 1 0) s) ∧
    ∃ s, allocate (fun _ _ _ => false)
        (inputOf [seatOf .claude "a" 2, seatOf .codex "b" 1] [[.claude, .claude], [.claude]] [] 2 0) = some s ∧
      ¬ Unwasted (inputOf [seatOf .claude "a" 2, seatOf .codex "b" 1] [[.claude, .claude], [.claude]] [] 2 0) s := by
  refine ⟨⟨_, rfl, fun hw => ?_⟩, ⟨_, rfl, fun hw => ?_⟩, ⟨_, rfl, fun hw => ?_⟩⟩
  · exact absurd (hw .claude .ci 0 rfl ⟨by decide, .inr (by decide)⟩ .eng ⟨0, .claude, "a"⟩ (by decide) rfl (by decide)
      (seatOf .codex "b" 1) (by decide) rfl) (by decide)
  · exact absurd (hw .claude .ci 1 rfl ⟨by decide, .inr (by decide)⟩ .eng ⟨0, .claude, "a"⟩ (by decide) rfl (by decide)
      (seatOf .codex "b" 1) (by decide) rfl) (by decide)
  · exact absurd (hw .claude .ci 1 rfl ⟨by decide, .inr (by decide)⟩ .eng ⟨0, .claude, "a"⟩ (by decide) rfl (by decide)
      (seatOf .codex "b" 1) (by decide) rfl) (by decide)

end Examples

end Allocation
