import Mathlib.Algebra.Order.Group.MinMax
import Mathlib.Tactic.Ring
import Agentihooks.Library.Lists
import Agentihooks.Stages.Theorems.Holds

-- Every instant that a timeline has in the window is charged once, such that the seconds of its stages are the length of
-- what it has there.

namespace Stages

open List

variable {M : Type} [AddCommMonoid M] {w : Quantity ℚ M} {i : ℕ} {now t : ℚ} {held : List Span} {hold : Span}
variable {us ps : List Piece} {p : Piece} {pair : ℚ × ℚ} {lives : List (ℚ × ℚ)} {cap : Option ℤ}
variable {found : List Timeline} {laid : List (List Segment)} {window : Window} {cs ds : List Charge}
variable {seats : Option (KeyTable String ℤ)} {lane : String}

-- What the charges to one timeline amount to.
def amount (w : Quantity ℚ M) (i : ℕ) (cs : List Charge) : M :=
  (cs.map fun c => if c.owner = i then w.of c.start c.stop else 0).sum

-- What a piece amounts to for one timeline.
def Piece.amount (w : Quantity ℚ M) (i : ℕ) (p : Piece) : M :=
  if p.owner = i then w.of p.start p.stop else 0

theorem amount_append : amount w i (cs ++ ds) = amount w i cs + amount w i ds := by
  simp [amount]

theorem amount_flatMap {α : Type} {l : List α} {f : α → List Charge} :
    amount w i (l.flatMap f) = (l.map fun x => amount w i (f x)).sum :=
  Sums.map_flatMap f

section Split

theorem amount_splitAt : amount w i (splitAt ps lives cap pair) =
    (ps.map fun p => if p.spans pair then (if p.owner = i then w.of pair.1 pair.2 else 0) else 0).sum := by
  have hz : ((((ps.filter (·.spans pair)).mergeSort Piece.le).zipIdx.map fun x => x.1).map
      fun p : Piece => if p.owner = i then w.of pair.1 pair.2 else 0) =
      (((ps.filter (·.spans pair)).mergeSort Piece.le).map
        fun p : Piece => if p.owner = i then w.of pair.1 pair.2 else 0) := by
    rw [zipIdx_map_fst]
  rw [amount, splitAt, map_map, ← Sums.map_filter, ← ((mergeSort_perm _ Piece.le).map _).sum_eq, ← hz, map_map]
  rfl

-- What waits in a lane is charged as long as it waits.
theorem amount_split (hp : ∀ p ∈ ps, p.start ≤ p.stop) :
    amount w i (split ps lives cap) = (ps.map (·.amount w i)).sum := by
  rw [split, amount_flatMap]
  simp only [amount_splitAt]
  rw [Sums.map_comm]
  refine Sums.map_congr fun p hm => ?_
  have hs : p.start ∈ splitPoints ps lives :=
    Cuts.mem_points.mpr (mem_append_left _ (mem_flatMap.mpr ⟨p, hm, mem_cons_self⟩))
  have he : p.stop ∈ splitPoints ps lives :=
    Cuts.mem_points.mpr (mem_append_left _ (mem_flatMap.mpr ⟨p, hm, mem_cons_of_mem _ mem_cons_self⟩))
  rw [Piece.amount, ← Sums.map_filter]
  by_cases ho : p.owner = i
  case neg =>
    simp only [if_neg ho]
    exact Sums.map_eq_zero fun _ _ => rfl
  case pos =>
    simp only [if_pos ho]
    exact Cuts.total_between Cuts.points_sorted hs he (hp p hm)

end Split

section Held

theorem amount_holdCharges (hu : us.Nodup) : amount w i (holdCharges us hold) =
    (us.map fun p => ((Cuts.pairs (holdPoints us hold)).map fun pair =>
      if p ∈ chosen us hold pair then (if p.owner = i then w.of pair.1 pair.2 else 0) else 0).sum).sum := by
  rw [amount, holdCharges, heldBy, map_map, Sums.map_flatMap, Sums.map_comm]
  refine Sums.map_congr fun pair hp => ?_
  rw [map_map]
  exact Sums.map_chosen (nodup_chosen hu) hu fun p hp => (mem_chosen hp).left

-- What the holds are charged is what they cut out of the pieces.
theorem amount_held (hu : us.Nodup) : amount w i (held.flatMap (holdCharges us)) =
    (us.map fun p => if p.owner = i then w.total (cut us held p) else 0).sum := by
  rw [amount_flatMap]
  simp only [amount_holdCharges hu]
  rw [Sums.map_comm]
  refine Sums.map_congr fun p _ => ?_
  rw [cut_eq hu, Quantity.total, Sums.map_flatMap]
  simp only [Sums.map_filter, decide_eq_true_eq]
  by_cases ho : p.owner = i
  case pos => simp only [if_pos ho]
  case neg =>
    simp only [if_neg ho, ite_self]
    exact Sums.map_eq_zero fun _ _ => Sums.map_eq_zero fun _ _ => rfl

end Held

section Laid

-- Every timeline with the segments that it is cut into.
abbrev Laid (window : Window) (found : List Timeline) (laid : List (List Segment)) : Prop :=
  Forall₂ (fun timeline segs => segments timeline window = some segs) found laid

variable {timeline : Timeline} {segs : List Segment} {s : Segment}

theorem segments_total (h : segments timeline window = some segs) :
    (segs.map fun s => w.of s.start s.stop).sum = w.of (low timeline window) (high timeline window) := by
  have hs : (segs.map fun s => w.of s.start s.stop).sum = w.total (segs.map fun s => (s.start, s.stop)) := by
    rw [Quantity.total, map_map]
    rfl
  rw [hs, segments_spans h]
  exact Cuts.total_pairs edges_sorted low_mem high_mem fun _ => edges_between

theorem segment_lt (h : segments timeline window = some segs) (hs : s ∈ segs) :
    s.start < s.stop ∧ s.stop ≤ window.stop := by
  have hm : (s.start, s.stop) ∈ Cuts.pairs (edges timeline window) := segments_spans h ▸ mem_map_of_mem hs
  have hl := Cuts.lt_of_pairs edges_sorted hm
  have he := Cuts.mem_of_pairs hm
  have hlow : low timeline window < s.stop := (edges_between he.left).left.trans_lt hl
  have hhigh : s.stop ≤ high timeline window := (edges_between he.right).right
  refine ⟨hl, ?_⟩
  obtain hc | hc := le_max_iff.mp hhigh
  case inl => exact absurd hlow (not_lt.mpr hc)
  case inr => exact hc.trans (min_le_right _ _)

theorem segments_nodup (h : segments timeline window = some segs) : (segs.map (·.start)).Nodup := by
  have hp : (segs.map fun s => (s.start, s.stop)).Pairwise fun a b => a.1 < b.1 := by
    rw [segments_spans h]
    exact (Cuts.pairs_apart edges_sorted).imp_of_mem fun ha _ hab =>
      (Cuts.lt_of_pairs edges_sorted ha).trans_le hab
  exact pairwise_map.mpr ((pairwise_map.mp hp).imp fun hab => hab.ne)

theorem mem_pieces {x : String × Piece} (h : x ∈ pieces found laid) : ∃ timeline segs,
    (found.zip laid)[x.2.owner]? = some (timeline, segs) ∧ x.1 = timeline.lane ∧
    ∃ s ∈ segs, s.stage = .claimWait ∧ x.2 = ⟨timeline.start, timeline.task, s.start, s.stop, x.2.owner, s.label⟩ := by
  obtain ⟨y, hy, hx⟩ := mem_flatMap.mp h
  obtain ⟨s, hs, rfl⟩ := mem_map.mp hx
  have hf := mem_filter.mp hs
  exact ⟨y.1.1, y.1.2, mem_zipIdx_iff_getElem?.mp hy, rfl, s, hf.left, by simpa using hf.right, rfl⟩

theorem segments_of_zip (hl : Laid window found laid) (h : (found.zip laid)[i]? = some (timeline, segs)) :
    segments timeline window = some segs := by
  have hm := mem_of_getElem? h
  exact (forall₂_iff_zip.mp hl).right hm

theorem piece_lt (hl : Laid window found laid) (hp : p ∈ under found laid) :
    p.start < p.stop ∧ p.stop ≤ window.stop := by
  obtain ⟨x, hx, rfl⟩ := mem_map.mp hp
  obtain ⟨timeline, segs, hz, _, s, hs, _, he⟩ := mem_pieces hx
  rw [he]
  exact segment_lt (segments_of_zip hl hz) hs

-- Two pieces of one timeline start at different times.
theorem nodup_under (hl : Laid window found laid) : (under found laid).Nodup := by
  rw [under, pieces, map_flatMap, nodup_flatMap]
  constructor
  case left =>
    intro x hx
    have hs := segments_of_zip hl (mem_zipIdx_iff_getElem?.mp hx)
    have hn : ((x.1.2.filter (·.stage = .claimWait)).map (·.start)).Nodup :=
      (segments_nodup hs).sublist (filter_sublist.map _)
    rw [map_map]
    refine Nodup.of_map (·.start) ?_
    rw [map_map]
    exact hn
  case right =>
    have hi : (found.zip laid).zipIdx.Pairwise fun x y => x.2 ≠ y.2 := by
      have hr : ((found.zip laid).zipIdx.map (·.2)).Nodup := by
        rw [zipIdx_map_snd]
        exact nodup_range'
      exact pairwise_map.mp hr
    refine hi.imp fun {x y} hxy p hp hq => ?_
    obtain ⟨a, ha, hap⟩ := mem_map.mp hp
    obtain ⟨b, hb, hbp⟩ := mem_map.mp hq
    obtain ⟨_, _, rfl⟩ := mem_map.mp ha
    obtain ⟨_, _, rfl⟩ := mem_map.mp hb
    exact hxy (congrArg Piece.owner (hap.trans hbp.symm))

theorem sum_under {f : Piece → M} : ((under found laid).map f).sum = ((pieces found laid).map fun x => f x.2).sum := by
  rw [under, map_map]
  rfl

theorem amount_own : amount w i (own laid) =
    (laid[i]?.map fun segs => ((segs.filter (·.stage ≠ .claimWait)).map fun s => w.of s.start s.stop).sum).getD 0 := by
  have hz := Sums.map_zipIdx (l := laid) (i := i) (n := 0)
    (f := fun segs => ((segs.filter (·.stage ≠ .claimWait)).map fun s => w.of s.start s.stop).sum)
  rw [if_pos (Nat.zero_le i), Nat.sub_zero] at hz
  rw [own, amount_flatMap, ← hz]
  refine Sums.map_congr fun x _ => ?_
  rw [amount, map_map]
  by_cases hx : x.2 = i
  case pos => simp [hx, Function.comp_def]
  case neg => simp [hx, Function.comp_def]

theorem amount_pieces : ((pieces found laid).map fun x => x.2.amount w i).sum =
    ((found.zip laid)[i]?.map fun x =>
      ((x.2.filter (·.stage = .claimWait)).map fun s => w.of s.start s.stop).sum).getD 0 := by
  have hz := Sums.map_zipIdx (l := found.zip laid) (i := i) (n := 0)
    (f := fun x => ((x.2.filter (·.stage = .claimWait)).map fun s => w.of s.start s.stop).sum)
  rw [if_pos (Nat.zero_le i), Nat.sub_zero] at hz
  rw [pieces, Sums.map_flatMap, ← hz]
  refine Sums.map_congr fun x _ => ?_
  rw [map_map]
  by_cases hx : x.2 = i
  case pos => simp [hx, Function.comp_def, Piece.amount]
  case neg => simp [hx, Function.comp_def, Piece.amount]

end Laid

section Lanes

theorem uncut_lt {u : Piece} {taken : List (ℚ × ℚ)} (h : u ∈ uncut p taken) : u.start < u.stop ∧ u.owner = p.owner := by
  obtain ⟨x, hx, rfl⟩ := mem_map.mp h
  exact ⟨Cuts.lt_of_rest hx, rfl⟩

theorem amount_uncut {taken : List (ℚ × ℚ)} : ((uncut p taken).map (·.amount w i)).sum =
    if p.owner = i then w.total ((uncut p taken).map fun u => (u.start, u.stop)) else 0 := by
  have ho : ∀ u ∈ uncut p taken, u.amount w i = if p.owner = i then w.of u.start u.stop else 0 := by
    intro u hu
    rw [Piece.amount, (uncut_lt hu).right]
  rw [Sums.map_congr ho, Quantity.total, map_map]
  by_cases h : p.owner = i
  case pos => simp [h, Function.comp_def]
  case neg => simp [h]

-- What is left of the pieces is charged in their lanes.
theorem amount_lanes : amount w i ((lanes found laid).flatMap (laneCharges found laid held seats)) =
    ((pieces found laid).map fun x => if x.2.owner = i then
      w.total ((uncut x.2 (cut (under found laid) held x.2)).map fun u => (u.start, u.stop)) else 0).sum := by
  have hs : ∀ lane, amount w i (laneCharges found laid held seats lane) =
      (((pieces found laid).filter (·.1 = lane)).map fun x =>
        ((uncut x.2 (cut (under found laid) held x.2)).map (·.amount w i)).sum).sum := by
    intro lane
    rw [laneCharges, amount_split, laneRest, Sums.map_flatMap]
    intro u hu
    obtain ⟨x, _, hx⟩ := mem_flatMap.mp hu
    exact (uncut_lt hx).left.le
  rw [amount_flatMap]
  simp only [hs, amount_uncut]
  exact Sums.map_groups Prod.fst (nodup_dedup _) fun x hx => mem_dedup.mpr (mem_map_of_mem hx)

end Lanes

section Conserved

variable {timeline : Timeline} {c : Charge} {cap : ℤ}

theorem zip_of_getElem? (hl : Laid window found laid) (h : found[i]? = some timeline) :
    ∃ segs, laid[i]? = some segs ∧ segments timeline window = some segs := by
  obtain ⟨hi, rfl⟩ := List.getElem?_eq_some_iff.mp h
  have hj : i < laid.length := hl.length_eq ▸ hi
  exact ⟨laid[i], getElem?_eq_getElem hj, hl.get hi hj⟩

theorem laid_segments {segs : List Segment} (hl : Laid window found laid) (h : laid[i]? = some segs) :
    ∃ timeline, segments timeline window = some segs := by
  obtain ⟨hj, rfl⟩ := List.getElem?_eq_some_iff.mp h
  have hi : i < found.length := hl.length_eq ▸ hj
  exact ⟨found[i], hl.get hi hj⟩

-- The charges to a timeline amount to what it has in the window.
theorem amount_charges (hl : Laid window found laid) (ha : Apart window.stop held) (h : found[i]? = some timeline) :
    amount w i (charges found laid held seats) = w.of (low timeline window) (high timeline window) := by
  obtain ⟨segs, hs, hg⟩ := zip_of_getElem? hl h
  have hz : (found.zip laid)[i]? = some (timeline, segs) := getElem?_zip_eq_some.mpr ⟨h, hs⟩
  have hw : ∀ p ∈ under found laid, p.stop ≤ window.stop := fun p hp => (piece_lt hl hp).right
  have hp : (amount w i (held.flatMap (holdCharges (under found laid)))) +
      amount w i ((lanes found laid).flatMap (laneCharges found laid held seats)) =
      ((pieces found laid).map fun x => x.2.amount w i).sum := by
    rw [amount_held (nodup_under hl), amount_lanes, sum_under, ← sum_map_add]
    refine Sums.map_congr fun x hx => ?_
    have hu : x.2 ∈ under found laid := mem_map_of_mem hx
    by_cases ho : x.2.owner = i
    case neg => simp [Piece.amount, ho]
    case pos =>
      simp only [if_pos ho, Piece.amount]
      exact total_uncut (nodup_under hl) hw ha (piece_lt hl hu).left.le
  have hc := sum_map_filter_add_sum_map_filter_not (fun s : Segment => s.stage = .claimWait)
    (fun s => w.of s.start s.stop) segs
  rw [charges, amount_append, amount_append, add_assoc, hp, amount_own, amount_pieces, hs, hz, ← segments_total hg, ← hc,
    add_comm]
  simp

def length : Quantity ℚ ℚ where
  of a b := (b - a) / 1000
  self a := by simp
  add a b c _ _ := by ring

theorem amount_length : amount length i cs = ((cs.filter (·.owner = i)).map Charge.seconds).sum := by
  rw [Sums.map_filter]
  simp only [amount, decide_eq_true_eq]
  rfl

theorem amount_instant : amount (.instant t) i cs = (cs.filter (·.owner = i)).countP (·.covers t) := by
  rw [countP_eq_length_filter, filter_filter, ← countP_eq_length_filter, amount]
  induction cs
  case nil => rfl
  case cons c cs hi =>
    rw [map_cons, sum_cons, hi, countP_cons, add_comm]
    congr 1
    by_cases ho : c.owner = i
    case neg => simp [ho]
    case pos => simp [ho, Quantity.instant, Charge.covers]

theorem length_window : length.of (low timeline window) (high timeline window) =
    window.seconds timeline.start timeline.stop := by
  change (max (low timeline window) (min timeline.stop window.stop) - low timeline window) / 1000 =
    max 0 (min timeline.stop window.stop - low timeline window) / 1000
  rw [← max_sub_sub_right, sub_self]

theorem instant_window : (Quantity.instant t).of (low timeline window) (high timeline window) =
    if timeline.start ≤ t ∧ t < timeline.stop ∧ window.start ≤ t ∧ t < window.stop then 1 else 0 := by
  refine if_congr ⟨fun h => mem_window h.left h.right, fun h => ?_⟩ rfl rfl
  exact ⟨max_le h.left h.right.right.left, lt_max_iff.mpr (.inr (lt_min h.right.left h.right.right.right))⟩

theorem hold_count : (holdCharges us hold).countP (·.covers t) ≤ hold.count := by
  have hp : ∀ pair, ((chosen us hold pair).map fun p => (p, pair)).countP
      (fun x => (Charge.mk x.1.owner hold.stage hold.label x.2.1 x.2.2).covers t) =
      if pair.1 ≤ t ∧ t < pair.2 then (chosen us hold pair).length else 0 := by
    intro pair
    rw [countP_map]
    by_cases ht : pair.1 ≤ t ∧ t < pair.2
    case pos => simp [Function.comp_def, Charge.covers, ht, countP_true]
    case neg => simp [Function.comp_def, Charge.covers, ht]
  rw [holdCharges, countP_map, heldBy, countP_flatMap]
  simp only [Function.comp_def, hp]
  exact Cuts.sum_at_le Cuts.points_sorted fun pair => length_take_le _ _

theorem countP_ranks {l : List Piece} {n : ℤ} {k : ℕ} :
    (l.zipIdx k).countP (fun x => (x.2 : ℤ) < n) ≤ (n - k).toNat := by
  induction l generalizing k
  case nil => simp
  case cons a l hi =>
    have hk := hi (k := k + 1)
    rw [zipIdx_cons, countP_cons]
    by_cases h : (k : ℤ) < n
    case pos =>
      simp only [h, decide_true, if_true]
      omega
    case neg =>
      simp only [h, decide_false, Bool.false_eq_true, if_false]
      omega

theorem seat_count : (split ps lives (some cap)).countP (fun c => c.stage = .seatWait ∧ c.covers t) ≤ cap.toNat := by
  have hp : ∀ pair, (splitAt ps lives (some cap) pair).countP (fun c => c.stage = .seatWait ∧ c.covers t) =
      if pair.1 ≤ t ∧ t < pair.2 then
        (((ps.filter (·.spans pair)).mergeSort Piece.le).zipIdx.countP
          fun x => (x.2 : ℤ) < seatsAt ps lives (some cap) pair) else 0 := by
    intro pair
    rw [splitAt, countP_map]
    by_cases ht : pair.1 ≤ t ∧ t < pair.2
    case neg => simp [Function.comp_def, Charge.covers, ht]
    case pos =>
      rw [if_pos ht]
      refine countP_congr fun x _ => ?_
      by_cases hx : (x.2 : ℤ) < seatsAt ps lives (some cap) pair <;> simp [Charge.covers, ht, hx]
  rw [split, countP_flatMap]
  simp only [Function.comp_def, hp]
  refine Cuts.sum_at_le Cuts.points_sorted fun pair => countP_ranks.trans ?_
  rw [Nat.cast_zero, Int.sub_zero, seatsAt]
  by_cases hb : cap ≤ lives.countP (fun life => life.1 ≤ pair.1 ∧ pair.2 ≤ life.2)
  case pos => rw [if_pos hb]
  case neg =>
    rw [if_neg hb]
    exact Nat.zero_le _

theorem charge_le (hl : Laid window found laid) (h : c ∈ charges found laid held seats) : c.start ≤ c.stop := by
  rw [charges, mem_append, mem_append, or_assoc] at h
  obtain h | h | h := h
  · obtain ⟨x, hx, h⟩ := mem_flatMap.mp h
    obtain ⟨s, hs, rfl⟩ := mem_map.mp h
    obtain ⟨timeline, hg⟩ := laid_segments hl (mem_zipIdx_iff_getElem?.mp hx)
    exact (segment_lt hg (mem_filter.mp hs).left).left.le
  · obtain ⟨hold, _, h⟩ := mem_flatMap.mp h
    obtain ⟨x, hx, rfl⟩ := mem_map.mp h
    exact (Cuts.lt_of_pairs Cuts.points_sorted (mem_heldBy.mp hx).left).le
  · obtain ⟨lane, _, h⟩ := mem_flatMap.mp h
    obtain ⟨pair, hp, h⟩ := mem_flatMap.mp h
    obtain ⟨x, _, rfl⟩ := mem_map.mp h
    exact (Cuts.lt_of_pairs Cuts.points_sorted hp).le

end Conserved

section Tables

variable {table : KeyTable (Stage × String) ℚ} {k : Stage × String} {v : ℚ}

theorem total_charges : KeyTable.total (cs.foldl charge table) = KeyTable.total table + (cs.map Charge.seconds).sum := by
  induction cs generalizing table
  case nil => simp
  case cons c cs hi =>
    rw [foldl_cons, hi, charge, KeyTable.total_add, map_cons, sum_cons, add_assoc]

theorem charges_nonneg (hc : ∀ c ∈ cs, 0 ≤ c.seconds) (ht : ∀ k v, table.lookup k = some v → 0 ≤ v)
    (h : (cs.foldl charge table).lookup k = some v) : 0 ≤ v := by
  induction cs generalizing table
  case nil => exact ht k v h
  case cons c cs hi =>
    refine hi (fun d hd => hc d (mem_cons_of_mem c hd)) (fun j u hj => ?_) h
    rw [charge] at hj
    by_cases he : j = (c.stage, c.label)
    case neg =>
      rw [AList.lookup_insert_ne he] at hj
      exact ht j u hj
    case pos =>
      subst he
      rw [AList.lookup_insert, Option.some.injEq] at hj
      have hs := hc c mem_cons_self
      cases hl : table.lookup (c.stage, c.label) with
      | none   => simpa [hl, ← hj] using hs
      | some x =>
        have hx := ht _ x hl
        rw [hl, Option.getD_some] at hj
        linarith

end Tables

-- What the account of a window keeps, whatever the rows, the tasks and the seats.
structure Conserved (window : Window) (found : List Timeline) (laid : List (List Segment)) (held : List Span)
    (seats : Option (KeyTable String ℤ)) : Prop where
  stage   : ∀ timeline ∈ found, ∀ t, timeline.start ≤ t → t < timeline.stop → stageAt timeline t ≠ none
  once    : ∀ i timeline, found[i]? = some timeline → ∀ t,
    ((charges found laid held seats).filter (·.owner = i)).countP (·.covers t) =
      if timeline.start ≤ t ∧ t < timeline.stop ∧ window.start ≤ t ∧ t < window.stop then 1 else 0
  seconds : ∀ i timeline, found[i]? = some timeline →
    (((charges found laid held seats).filter (·.owner = i)).map Charge.seconds).sum =
      window.seconds timeline.start timeline.stop
  nonneg  : ∀ c ∈ charges found laid held seats, 0 ≤ c.seconds
  holds   : ∀ hold ∈ held, ∀ t, (holdCharges (under found laid) hold).countP (·.covers t) ≤ hold.count
  seats   : ∀ lane cap, laneCap seats lane = some cap → ∀ t,
    (laneCharges found laid held seats lane).countP (fun c => c.stage = .seatWait ∧ c.covers t) ≤ cap.toNat

theorem conserved (hc : ∀ timeline ∈ found, Covered timeline) (hl : Laid window found laid)
    (ha : Apart window.stop held) : Conserved window found laid held seats where
  stage timeline h t hs ht := stageAt_ne_none (hc timeline h) hs ht
  once i timeline h t := by rw [← amount_instant, amount_charges hl ha h, instant_window]
  seconds i timeline h := by rw [← amount_length, amount_charges hl ha h, length_window]
  nonneg c h := by
    have hle := charge_le hl h
    exact div_nonneg (by linarith) (by norm_num)
  holds hold _ t := hold_count
  seats lane cap h t := by
    rw [laneCharges, h]
    exact seat_count

variable (window) in
theorem exists_laid (h : ∀ timeline ∈ found, Covered timeline) :
    ∃ laid, found.mapM (segments · window) = some laid := by
  induction found
  case nil => exact ⟨[], rfl⟩
  case cons timeline found hi =>
    obtain ⟨laid, hl⟩ := hi fun x hx => h x (mem_cons_of_mem timeline hx)
    obtain ⟨segs, hs⟩ := exists_segments window (h timeline mem_cons_self)
    exact ⟨segs :: laid, by simp [hs, hl]⟩

-- The account never fails, and gives every timeline the seconds of what it has in the window, by stages.
theorem charged_conserves {ρ : Type} (rows : Rows) (tasks : List (Task ρ)) (now windowMs : ℚ) (claim : Claim ρ) :
    ∃ laid out, (timelines rows tasks now claim).mapM (segments · ⟨now - windowMs, now⟩) = some laid ∧
      Conserved ⟨now - windowMs, now⟩ (timelines rows tasks now claim) laid (holds rows.hostSamples now) claim.seats ∧
      charged rows tasks now windowMs claim = some out ∧ out.map (·.1) = timelines rows tasks now claim ∧
      ∀ x ∈ out, KeyTable.total x.2 = Window.seconds ⟨now - windowMs, now⟩ x.1.start x.1.stop ∧
        ∀ y ∈ KeyTable.toList x.2, 0 ≤ y.2 := by
  obtain ⟨laid, hm⟩ := exists_laid ⟨now - windowMs, now⟩
    fun timeline (h : timeline ∈ timelines rows tasks now claim) => covered_timelines h
  have hc : Conserved ⟨now - windowMs, now⟩ (timelines rows tasks now claim) laid (holds rows.hostSamples now)
      claim.seats := conserved (fun _ h => covered_timelines h) (forall₂_of_mapM hm) holds_apart
  refine ⟨laid, _, hm, hc, by rw [charged, hm, Option.map_some], ?_, ?_⟩
  · rw [map_map]
    exact zipIdx_map_fst _ _
  · intro x hx
    obtain ⟨y, hy, rfl⟩ := mem_map.mp hx
    have hi := mem_zipIdx_iff_getElem?.mp hy
    constructor
    case left =>
      change KeyTable.total (foldl charge ∅ _) = _
      rw [total_charges, hc.seconds y.2 y.1 hi]
      exact zero_add _
    case right =>
      intro z hz
      refine charges_nonneg (fun c h => hc.nonneg c (mem_filter.mp h).left) (fun k v h => ?_) (KeyTable.mem_toList.mp hz)
      simp at h

end Stages
