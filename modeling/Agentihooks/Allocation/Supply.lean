import Mathlib.Algebra.Order.BigOperators.Group.List
import Mathlib.Algebra.Order.Group.Nat
import Agentihooks.Library.Lists

-- What an allocation turn by turn comes to, apart from seats and accounts: a stock of each kind, tasks in lanes of which
-- each names the kinds that it may take, and how many more tasks each lane may start. As much of a kind as the tasks in
-- reach need for themselves is left to them. That wastes nothing when a task takes one of two kinds, or either.

namespace Supply

variable {L H : Type} [DecidableEq L] [DecidableEq H]

structure View (L H : Type) where
  stock : H → ℕ
  todo  : L → List (List H)
  left  : L → ℕ

namespace View

-- The tasks in reach that can take `h` only.
def bound (lanes : List L) (v : View L H) (h : H) : ℕ :=
  (lanes.map fun l => ((v.todo l).take (v.left l)).count [h]).sum

def Barren (v : View L H) (task : List H) : Prop :=
  ∀ h ∈ task, v.stock h = 0

def moved (v : View L H) (l : L) (todo : List (List H)) : View L H :=
  { v with todo := Function.update v.todo l todo }

def taken (v : View L H) (l : L) (todo : List (List H)) (h : H) : View L H where
  stock := Function.update v.stock h (v.stock h - 1)
  todo  := Function.update v.todo l todo
  left  := Function.update v.left l (v.left l - 1)

def Ended (lanes : List L) (v : View L H) : Prop :=
  ∀ l ∈ lanes, 0 < v.left l → ∀ task ∈ v.todo l, v.Barren task

end View

open View

-- A turn of lane `l`, which passes over what nothing is left for and gives `h` to the task after that.
structure Turn (lanes : List L) (v : View L H) (l : L) (skipped : List (List H)) (task : List H) (rest : List (List H))
    (h : H) : Prop where
  lane   : l ∈ lanes
  left   : 0 < v.left l
  todo   : v.todo l = skipped ++ task :: rest
  barren : ∀ t ∈ skipped, v.Barren t
  mem    : h ∈ task
  stock  : 0 < v.stock h
  spare  : (v.moved l (task :: rest)).bound lanes h < v.stock h ∨
    ∀ k ∈ task, 0 < v.stock k → v.stock k ≤ (v.moved l (task :: rest)).bound lanes k

variable {lanes : List L} {v : View L H} {l : L} {skipped rest : List (List H)} {task : List H} {h h' k : H}

theorem bound_taken (hn : lanes.Nodup) (hl : l ∈ lanes) (hp : 0 < v.left l) :
    (v.moved l (task :: rest)).bound lanes h = (v.taken l rest k).bound lanes h + if task = [h] then 1 else 0 := by
  rw [bound, bound, ← Sums.map_key (a := if task = [h] then 1 else 0) hn hl, ← List.sum_map_add]
  refine Sums.map_congr fun i _ => ?_
  by_cases hi : l = i
  case pos =>
    subst hi
    obtain ⟨n, hm⟩ := Nat.exists_eq_succ_of_ne_zero hp.ne'
    simp only [moved, taken, Function.update_self, hm, List.take_succ_cons, List.count_cons, Nat.succ_sub_one, if_true,
      beq_iff_eq]
  case neg => simp [moved, taken, Function.update_of_ne (Ne.symm hi), hi]

-- What is passed over brings more tasks into reach, if it has none of those that need `h`.
theorem bound_le_moved (lanes : List L) (ht : v.todo l = skipped ++ rest) (hs : [h] ∉ skipped) :
    v.bound lanes h ≤ (v.moved l rest).bound lanes h := by
  refine List.sum_le_sum fun i _ => ?_
  by_cases hi : i = l
  case pos =>
    subst hi
    simp only [moved, Function.update_self, ht]
    rw [List.take_append, List.count_append, List.count_eq_zero_of_not_mem (fun hm => hs (List.mem_of_mem_take hm)),
      Nat.zero_add]
    exact (List.take_sublist_take_left (Nat.sub_le _ _)).count_le _
  case neg => simp [moved, Function.update_of_ne hi]

omit [DecidableEq L] in
theorem bound_pos (hl : l ∈ lanes) (hp : 0 < v.left l) (ht : v.todo l = [h] :: rest) : 0 < v.bound lanes h := by
  have hm : 1 ≤ ((v.todo l).take (v.left l)).count [h] := by
    obtain ⟨n, hn⟩ := Nat.exists_eq_succ_of_ne_zero hp.ne'
    simp [ht, hn]
  exact hm.trans (List.single_le_sum (fun _ _ => Nat.zero_le _) _
    (List.mem_map_of_mem (f := fun l => ((v.todo l).take (v.left l)).count [h]) hl))

-- A task for one of the two kinds, or for either.
def Plain (h h' : H) (task : List H) : Prop :=
  task = [h] ∨ task = [h'] ∨ h ∈ task ∧ h' ∈ task

-- What holds from turn to turn. `shared` is that a task for either kind was given `h`, `passed` that one that needs `h`
-- was passed over.
structure Kept (lanes : List L) (h h' : H) (v : View L H) (shared passed : Prop) : Prop where
  out   : passed → v.stock h = 0
  spare : shared → v.stock h' = 0 ∨ v.stock h' ≤ v.bound lanes h' ∨ v.bound lanes h ≤ v.stock h ∧ ¬ passed

omit [DecidableEq L] in
theorem Kept.mono {shared passed shared' passed' : Prop} (kept : Kept lanes h h' v shared passed)
    (hs : shared' → shared) (hp : passed' → passed) : Kept lanes h h' v shared' passed' where
  out hq   := kept.out (hp hq)
  spare hq := (kept.spare (hs hq)).imp_right (Or.imp_right (And.imp_right (mt hp)))

omit [DecidableEq L] [DecidableEq H] in
theorem View.Barren.of_plain (hb : v.Barren task) (hp : Plain h h' task) (hs : 0 < v.stock h') : task = [h] := by
  obtain rfl | rfl | ⟨_, hm⟩ := hp
  · rfl
  · exact absurd (hb h' (List.mem_singleton_self h')) hs.ne'
  · exact absurd (hb h' hm) hs.ne'

theorem stock_le : (v.taken l rest k).stock h ≤ v.stock h := by
  by_cases hk : h = k
  case pos => simp [taken, hk]
  case neg => simp [taken, Function.update_of_ne hk]

namespace Turn

variable {shared passed : Prop} (t : Turn lanes v l skipped task rest k)
  (hp : ∀ i, ∀ task ∈ v.todo i, Plain h h' task)
include t

theorem moved_bound (hn : lanes.Nodup) :
    (v.moved l (task :: rest)).bound lanes h = (v.taken l rest k).bound lanes h + if task = [h] then 1 else 0 :=
  bound_taken hn t.lane t.left

-- A task for either kind that is given `h`: there was more of it than is needed, or what is left of `h'` is needed.
theorem split (hn : lanes.Nodup) (hk : k = h) (hd : h ≠ h') (hm : h' ∈ task) (hs : 0 < v.stock h') :
    (v.taken l rest k).bound lanes h ≤ (v.taken l rest k).stock h ∨
    (v.taken l rest k).stock h' ≤ (v.taken l rest k).bound lanes h' := by
  subst hk
  have hw : (v.taken l rest k).stock k = v.stock k - 1 := Function.update_self _ _ _
  obtain hb | hb := t.spare
  · have := t.moved_bound hn (h := k)
    omega
  · have ht : task ≠ [h'] := fun he => hd (List.mem_singleton.mp (he ▸ t.mem))
    have hw' : (v.taken l rest k).stock h' = v.stock h' := Function.update_of_ne hd.symm _ _
    have := t.moved_bound hn (h := h')
    rw [if_neg ht] at this
    exact .inr (by rw [hw']; exact (hb h' hm hs).trans_eq this)

include hp

theorem plain : Plain h h' task := by
  refine hp l task ?_
  simp [t.todo]

-- As long as some of `h'` is left, only tasks that need `h` are passed over.
theorem skips (hs : 0 < v.stock h') : ∀ task ∈ skipped, task = [h] := by
  intro task hm
  refine Barren.of_plain (t.barren task hm) (hp l task ?_) hs
  simp [t.todo, hm]

-- Tasks that need `h'` have what is left of it between them, and go on having it.
theorem needed (hn : lanes.Nodup) (hd : h ≠ h') (hs : 0 < v.stock h') (hb : v.stock h' ≤ v.bound lanes h') :
    (v.taken l rest k).stock h' ≤ (v.taken l rest k).bound lanes h' := by
  have hm : [h'] ∉ skipped := fun hm => hd (List.singleton_inj.mp (t.skips hp hs _ hm)).symm
  have hr := bound_le_moved lanes t.todo hm
  rw [t.moved_bound hn] at hr
  by_cases hk : h' = k
  case pos =>
    have hw : (v.taken l rest k).stock h' = v.stock h' - 1 := hk ▸ Function.update_self _ _ _
    split_ifs at hr <;> omega
  case neg =>
    have ht : task ≠ [h'] := fun ht => hk (List.mem_singleton.mp (ht ▸ t.mem)).symm
    have hw : (v.taken l rest k).stock h' = v.stock h' := Function.update_of_ne hk _ _
    rw [if_neg ht] at hr
    omega

-- With what the tasks in reach need of `h` at hand, none is passed over.
theorem spared (hs : 0 < v.stock h') (hb : v.bound lanes h ≤ v.stock h) : skipped = [] := by
  cases he : skipped
  case nil => rfl
  case cons first more =>
    have hm : first ∈ skipped := he ▸ List.mem_cons_self
    have hf := t.skips hp hs first hm
    have hz := t.barren first hm h (hf ▸ List.mem_singleton_self h)
    have ht : v.todo l = [h] :: (more ++ task :: rest) := by rw [t.todo, he, hf, List.cons_append]
    have := bound_pos t.lane t.left ht
    omega

-- A task that takes none of what others need leaves it at hand.
theorem covered (hn : lanes.Nodup) (hs : 0 < v.stock h') (hb : v.bound lanes h ≤ v.stock h) (hk : k = h → task = [h]) :
    (v.taken l rest k).bound lanes h ≤ (v.taken l rest k).stock h := by
  have hm := t.moved_bound hn (h := h)
  have hv : v.moved l (task :: rest) = v := by
    have ht : task :: rest = v.todo l := by rw [t.todo, t.spared hp hs hb, List.nil_append]
    rw [ht, moved, Function.update_eq_self]
  rw [hv] at hm
  by_cases he : k = h
  case pos =>
    have hw : (v.taken l rest k).stock h = v.stock h - 1 := he ▸ Function.update_self _ _ _
    rw [if_pos (hk he)] at hm
    omega
  case neg =>
    have hw : (v.taken l rest k).stock h = v.stock h := Function.update_of_ne (Ne.symm he) _ _
    omega

theorem kept (hn : lanes.Nodup) (hd : h ≠ h') (kept : Kept lanes h h' v shared passed) :
    Kept lanes h h' (v.taken l rest k) (shared ∨ k = h ∧ h' ∈ task) (passed ∨ [h] ∈ skipped) where
  out hw := by
    refine Nat.eq_zero_of_le_zero (stock_le.trans_eq ?_)
    obtain hw | hw := hw
    · exact kept.out hw
    · exact t.barren _ hw h (List.mem_singleton_self h)
  spare hw := by
    by_cases hs : v.stock h' = 0
    case pos => exact .inl (Nat.eq_zero_of_le_zero (hs ▸ stock_le))
    case neg =>
      have hs := Nat.pos_of_ne_zero hs
      by_cases hb : v.stock h' ≤ v.bound lanes h'
      case pos => exact .inr (.inl (t.needed hp hn hd hs hb))
      case neg =>
        by_cases hg : k = h ∧ h' ∈ task
        case pos =>
          obtain hc | hc := t.split hn hg.left hd hg.right hs
          · refine .inr (.inr ⟨hc, fun hq => ?_⟩)
            have hz : v.stock h = 0 := hq.elim kept.out fun hm => t.barren _ hm h (List.mem_singleton_self h)
            exact absurd hz (hg.left ▸ t.stock.ne')
          · exact .inr (.inl hc)
        case neg =>
          have ⟨hr, hq⟩ := ((kept.spare (hw.resolve_right hg)).resolve_left hs.ne').resolve_left hb
          refine .inr (.inr ⟨t.covered hp hn hs hr fun hk => ?_, ?_⟩)
          · obtain ht | ht | ht := t.plain hp
            · exact ht
            · exact absurd (hk ▸ List.mem_singleton.mp (ht ▸ t.mem)) hd
            · exact absurd ⟨hk, ht.right⟩ hg
          · rw [t.spared hp hs hr]
            simpa using hq

end Turn

-- At the end: if some of `h'` is left and a task for either kind was given `h`, then no task that needs `h` goes without.
omit [DecidableEq L] in
theorem Kept.ended {shared passed : Prop} (kept : Kept lanes h h' v shared passed) (he : v.Ended lanes)
    (hp : ∀ i, ∀ task ∈ v.todo i, Plain h h' task) (hw : shared) (hs : 0 < v.stock h') :
    ¬ passed ∧ ∀ l ∈ lanes, 0 < v.left l → [h] ∉ v.todo l := by
  have first : ∀ l ∈ lanes, 0 < v.left l → ∀ task rest, v.todo l = task :: rest → task = [h] := fun l hl hp' task rest ht => by
    have hm : task ∈ v.todo l := ht ▸ List.mem_cons_self
    exact Barren.of_plain (he l hl hp' task hm) (hp l task hm) hs
  have none_bound : v.bound lanes h' = 0 := by
    refine Sums.map_eq_zero fun l hl => List.count_eq_zero_of_not_mem fun hm => ?_
    by_cases hl' : 0 < v.left l
    case pos =>
      have hm := List.mem_of_mem_take hm
      exact absurd (he l hl hl' _ hm h' (List.mem_singleton_self h')) hs.ne'
    case neg => simp [Nat.eq_zero_of_not_pos hl'] at hm
  have ⟨hr, hq⟩ := ((kept.spare hw).resolve_left hs.ne').resolve_left (by omega)
  refine ⟨hq, fun l hl hl' hm => ?_⟩
  cases ht : v.todo l
  case nil =>
    rw [ht] at hm
    cases hm
  case cons task rest =>
    have hf := first l hl hl' task rest ht
    subst hf
    have hz := he l hl hl' [h] hm h (List.mem_singleton_self h)
    have := bound_pos hl hl' ht
    omega

end Supply
