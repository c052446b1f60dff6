import Mathlib.Tactic.Linarith
import Mathlib.Data.List.Nodup
import Agentihooks.Library.Lists
import Agentihooks.Stages.Accounts

-- A span of a timeline's phases covers each of its instants, such that cutting it at the edges of its spans leaves
-- nothing without a stage.

namespace Stages

variable {ρ : Type} {rows : Rows} {tasks : List (Task ρ)} {task : Task ρ} {now t : ℚ} {claim : Claim ρ}
variable {marks : List Mark} {live : Bool} {timeline : Timeline} {window : Window} {laid : List Segment}

def Covered (timeline : Timeline) : Prop :=
  ∀ t, timeline.start ≤ t → t < timeline.stop → ∃ s ∈ timeline.base, s.covers t

variable (rows) in
theorem rounds_cover (taskId : String) {green stop : ℚ} (hg : green ≤ t) (hs : t < stop) :
    ∃ s ∈ rounds taskId rows green stop, s.covers t := by
  obtain ⟨p, hp, ht⟩ := Cuts.exists_pair Cuts.points_sorted (Cuts.mem_points.mpr List.mem_cons_self)
    (Cuts.mem_points.mpr (List.mem_cons_of_mem _ List.mem_cons_self)) hg hs
  exact ⟨_, List.mem_map_of_mem hp, by simpa [Span.covers] using ht⟩

theorem covered_claimed : Covered (claimed task rows now live claim marks) := by
  intro t hs ht
  obtain ⟨c, p, g, hb⟩ : ∃ c p g, (claimed task rows now live claim marks).base =
      ⟨.claimWait, (claimed task rows now live claim marks).start, c, "", 0⟩ :: ⟨.build, c, p, "", 0⟩ ::
        ⟨.ciRun, p, g, "", 0⟩ :: rounds task.id rows g (claimed task rows now live claim marks).stop :=
    ⟨_, _, _, rfl⟩
  rw [hb]
  by_cases hc : t < c
  case pos => exact ⟨_, List.mem_cons_self, by simp [Span.covers, hs, hc]⟩
  by_cases hp : t < p
  case pos => exact ⟨_, List.mem_cons_of_mem _ List.mem_cons_self, by simp [Span.covers, not_lt.mp hc, hp]⟩
  by_cases hg : t < g
  case pos =>
    exact ⟨_, List.mem_cons_of_mem _ (List.mem_cons_of_mem _ List.mem_cons_self),
      by simp [Span.covers, not_lt.mp hp, hg]⟩
  case neg =>
    obtain ⟨s, hm, hv⟩ := rounds_cover rows task.id (not_lt.mp hg) ht
    exact ⟨s, List.mem_cons_of_mem _ (List.mem_cons_of_mem _ (List.mem_cons_of_mem _ hm)), hv⟩

theorem covered_waiting (h : waiting task marks claim now = some timeline) : Covered timeline := by
  rw [waiting] at h
  by_cases hr : claim.ready task
  case neg => simp [hr] at h
  case pos =>
    rw [if_neg (by simpa using hr), Option.map_eq_some_iff] at h
    obtain ⟨start, _, rfl⟩ := h
    exact fun t hs ht => ⟨_, List.mem_cons_self, by simp [Span.covers, hs, ht]⟩

theorem covered_timelines (h : timeline ∈ timelines rows tasks now claim) : Covered timeline := by
  obtain h | h := List.mem_append.mp h
  case inl =>
    obtain ⟨_, _, rfl⟩ := List.mem_map.mp h
    exact covered_claimed
  case inr =>
    obtain ⟨_, _, h⟩ := List.mem_filterMap.mp h
    exact covered_waiting h

theorem stageAt_ne_none (h : Covered timeline) (hs : timeline.start ≤ t) (ht : t < timeline.stop) :
    stageAt timeline t ≠ none := by
  obtain ⟨s, hm, hc⟩ := h t hs ht
  rw [stageAt, Ne, Option.map_eq_none_iff, List.find?_eq_none]
  exact fun hn => hn s (List.mem_append_right _ hm) hc

section Segments

variable (timeline window) in
theorem low_le_high : low timeline window ≤ high timeline window :=
  le_max_left _ _

theorem edges_sorted : (edges timeline window).Pairwise (· < ·) :=
  Cuts.points_sorted

theorem low_mem : low timeline window ∈ edges timeline window :=
  Cuts.mem_points.mpr List.mem_cons_self

theorem high_mem : high timeline window ∈ edges timeline window :=
  Cuts.mem_points.mpr (List.mem_cons_of_mem _ List.mem_cons_self)

theorem edges_between (h : t ∈ edges timeline window) : low timeline window ≤ t ∧ t ≤ high timeline window := by
  have hl := low_le_high timeline window
  have hm := Cuts.mem_points.mp h
  simp only [List.mem_cons, List.mem_flatMap, List.not_mem_nil, or_false] at hm
  obtain rfl | rfl | ⟨s, _, rfl | rfl⟩ := hm
  · exact ⟨le_refl _, hl⟩
  · exact ⟨hl, le_refl _⟩
  · exact ⟨le_min (le_max_right _ _) hl, min_le_right _ _⟩
  · exact ⟨le_min (le_max_right _ _) hl, min_le_right _ _⟩

-- What is cut of the timeline lies in it and in the window.
theorem mem_window (hs : low timeline window ≤ t) (ht : t < high timeline window) :
    timeline.start ≤ t ∧ t < timeline.stop ∧ window.start ≤ t ∧ t < window.stop := by
  have hh : t < min timeline.stop window.stop := (lt_max_iff.mp ht).resolve_left (not_lt.mpr hs)
  exact ⟨(le_max_left _ _).trans hs, hh.trans_le (min_le_left _ _), (le_max_right _ _).trans hs,
    hh.trans_le (min_le_right _ _)⟩

variable (window) in
theorem exists_segments (h : Covered timeline) : ∃ laid, segments timeline window = some laid := by
  have hp : ∀ p ∈ Cuts.pairs (edges timeline window), stageAt timeline ((p.1 + p.2) / 2) ≠ none := by
    intro p hp
    have hm := Cuts.mem_of_pairs hp
    have hl := Cuts.lt_of_pairs edges_sorted hp
    have hs := (edges_between hm.left).left
    have hh := (edges_between hm.right).right
    have hlow : low timeline window ≤ (p.1 + p.2) / 2 := by linarith
    have hhigh : (p.1 + p.2) / 2 < high timeline window := by linarith
    have hw := mem_window hlow hhigh
    exact stageAt_ne_none h hw.left hw.right.left
  rw [segments]
  generalize Cuts.pairs (edges timeline window) = pairs at hp
  induction pairs
  case nil => exact ⟨[], rfl⟩
  case cons p pairs hi =>
    obtain ⟨laid, hl⟩ := hi fun q hq => hp q (List.mem_cons_of_mem p hq)
    obtain ⟨x, hx⟩ := Option.ne_none_iff_exists'.mp (hp p List.mem_cons_self)
    exact ⟨⟨p.1, p.2, x.1, x.2⟩ :: laid, by simp [hx, hl]⟩

theorem segments_spans (h : segments timeline window = some laid) :
    laid.map (fun s => (s.start, s.stop)) = Cuts.pairs (edges timeline window) := by
  rw [segments] at h
  generalize Cuts.pairs (edges timeline window) = pairs at h
  have hf := List.forall₂_of_mapM h
  clear h
  induction hf
  case nil => rfl
  case cons p s pairs laid hs _ hi =>
    obtain ⟨x, _, rfl⟩ := Option.map_eq_some_iff.mp hs
    rw [List.map_cons, hi]

end Segments

end Stages

-- Holds follow one another without overlapping, such that what they cut out of a piece is cut out once.

namespace Stages

open List

variable {now t : ℚ} {samples : List HostSample} {merged rest held : List Span} {span hold : Span}
variable {under : List Piece} {p q : Piece} {pair : ℚ × ℚ} {x : Piece × ℚ × ℚ}

-- A hold ends after its start, or is of a sample from after the present.
def Forward (now : ℚ) (hold : Span) : Prop :=
  hold.start ≤ hold.stop ∨ now ≤ hold.start ∧ now ≤ hold.stop

structure Apart (now : ℚ) (held : List Span) : Prop where
  pairwise : held.Pairwise fun a b => a.stop ≤ b.start
  forward  : ∀ hold ∈ held, Forward now hold

section Samples

-- The spans of sorted samples, each up to the next one.
def upTo (now : ℚ) (ordered : List HostSample) : List (HostSample × ℚ) :=
  (ordered.zip (ordered.tail.map (·.time) ++ [now])).map fun x => (x.1, min (x.1.time + sampleGap) x.2)

variable (now) in
theorem upTo_apart (hs : samples.Pairwise fun a b => a.time ≤ b.time) :
    (upTo now samples).Pairwise (fun x y => x.2 ≤ y.1.time) ∧
    (∀ x ∈ upTo now samples, x.1.time ≤ x.2 ∨ now ≤ x.1.time ∧ now ≤ x.2) ∧
    ∀ x ∈ upTo now samples, x.1 ∈ samples := by
  have hg : (0 : ℚ) ≤ sampleGap := by norm_num [sampleGap]
  induction samples
  case nil => exact ⟨.nil, by simp [upTo], by simp [upTo]⟩
  case cons a samples hi =>
    obtain ⟨ha, hs⟩ := pairwise_cons.mp hs
    obtain ⟨hp, hf, hm⟩ := hi hs
    cases samples with
    | nil =>
      refine ⟨pairwise_singleton _ _, fun x hx => ?_, fun x hx => ?_⟩
      · rw [mem_singleton.mp hx]
        by_cases hn : a.time ≤ now
        case pos => exact .inl (le_min (by linarith) hn)
        case neg => exact .inr ⟨(not_le.mp hn).le, le_min (by linarith [not_le.mp hn]) le_rfl⟩
      · rw [mem_singleton.mp hx]
        exact mem_singleton_self a
    | cons b samples =>
      have hu : upTo now (a :: b :: samples) = (a, min (a.time + sampleGap) b.time) :: upTo now (b :: samples) := rfl
      rw [hu]
      refine ⟨pairwise_cons.mpr ⟨fun x hx => ?_, hp⟩, fun x hx => ?_, fun x hx => ?_⟩
      · have hb : b.time ≤ x.1.time := by
          obtain he | he := mem_cons.mp (hm x hx)
          case inl => rw [he]
          case inr => exact (pairwise_cons.mp hs).left _ he
        exact (min_le_right _ _).trans hb
      · obtain rfl | hx := mem_cons.mp hx
        case inl => exact .inl (le_min (by linarith) (ha b mem_cons_self))
        case inr => exact hf x hx
      · obtain rfl | hx := mem_cons.mp hx
        case inl => exact mem_cons_self
        case inr => exact mem_cons_of_mem _ (hm x hx)

theorem heldSpans_apart : (heldSpans samples now).Pairwise (fun x y => x.2 ≤ y.1.time) ∧
    ∀ x ∈ heldSpans samples now, x.1.time ≤ x.2 ∨ now ≤ x.1.time ∧ now ≤ x.2 := by
  have hs : (samples.mergeSort fun a b => a.time ≤ b.time).Pairwise fun a b => a.time ≤ b.time := by
    have h := @pairwise_mergeSort HostSample (fun a b => decide (a.time ≤ b.time))
      (by simpa using fun a b c => le_trans) (by simpa using fun a b => le_total _ _) samples
    simpa using h
  have h := upTo_apart now hs
  exact ⟨h.left, h.right.left⟩

end Samples

section Merge

theorem Forward.join {last : Span} (hl : Forward now last) (hs : Forward now span) (he : last.stop = span.start) :
    Forward now { last with stop := span.stop } := by
  change last.start ≤ span.stop ∨ now ≤ last.start ∧ now ≤ span.stop
  rw [Forward, he] at hl
  obtain hl | hl := hl <;> obtain hs | hs := hs
  case inl.inl => exact .inl (hl.trans hs)
  case inr.inl => exact .inr ⟨hl.left, hl.right.trans hs⟩
  case inr.inr => exact .inr ⟨hl.left, hs.right⟩
  case inl.inr =>
    by_cases h : last.start ≤ span.stop
    case pos => exact .inl h
    case neg => exact .inr ⟨hs.right.trans (not_le.mp h).le, hs.right⟩

theorem merge_apart (h : Apart now (merged ++ span :: rest)) : Apart now (merge merged span ++ rest) := by
  have hk : Apart now (merged ++ [span] ++ rest) := by simpa using h
  rw [merge]
  cases hm : merged.getLast? with
  | none =>
    rw [getLast?_eq_none_iff.mp hm] at hk
    exact hk
  | some last =>
    by_cases he : (last.stage, last.label, last.count, last.stop) = (span.stage, span.label, span.count, span.start)
    case neg =>
      dsimp only
      rw [if_neg he]
      exact hk
    case pos =>
      dsimp only
      rw [if_pos he]
      obtain ⟨init, rfl⟩ := getLast?_eq_some_iff.mp hm
      have hj : last.stop = span.start := by
        simp only [Prod.mk.injEq] at he
        exact he.right.right.right
      obtain ⟨hp, hf⟩ := h
      rw [dropLast_concat]
      constructor
      case forward =>
        intro s hs
        simp only [mem_append, mem_singleton, or_assoc] at hs
        obtain hs | rfl | hs := hs
        · exact hf s (by simp [hs])
        · exact (hf last (by simp)).join (hf span (by simp)) hj
        · exact hf s (by simp [hs])
      case pairwise =>
        simp only [append_assoc, singleton_append, pairwise_append, pairwise_cons, mem_cons] at hp ⊢
        obtain ⟨hi, ⟨hl, hsr, hr⟩, hx⟩ := hp
        refine ⟨hi, ⟨hsr, hr⟩, fun a ha b hb => ?_⟩
        obtain rfl | hb := hb
        case inl => exact hx a ha last (.inl rfl)
        case inr => exact hx a ha b (.inr (.inr hb))

theorem foldl_merge_apart (h : Apart now (merged ++ rest)) : Apart now (rest.foldl merge merged) := by
  induction rest generalizing merged
  case nil           => simpa using h
  case cons s rest i => exact i (merge_apart h)

theorem holds_apart : Apart now (holds samples now) := by
  rw [holds]
  apply foldl_merge_apart
  rw [nil_append]
  constructor
  case pairwise => exact ((heldSpans_apart.left.filter _).map _ fun _ _ h => h)
  case forward =>
    intro s hs
    obtain ⟨x, hx, rfl⟩ := mem_map.mp hs
    exact heldSpans_apart.right x (mem_filter.mp hx).left

end Merge

section Cut

theorem mem_chosen (h : p ∈ chosen under hold pair) : p ∈ under ∧ p.start ≤ pair.1 ∧ pair.2 ≤ p.stop := by
  have hm := mem_mergeSort.mp (mem_of_mem_take h)
  simpa [Piece.spans] using mem_filter.mp hm

theorem nodup_chosen (hu : under.Nodup) : (chosen under hold pair).Nodup :=
  ((mergeSort_perm _ _).nodup_iff.mpr (hu.filter _)).sublist (take_sublist _ _)

theorem mem_heldBy : x ∈ heldBy under hold ↔
    x.2 ∈ Cuts.pairs (holdPoints under hold) ∧ x.1 ∈ chosen under hold x.2 := by
  obtain ⟨p, pair⟩ := x
  simp only [heldBy, mem_flatMap, mem_map, Prod.mk.injEq]
  constructor
  case mp =>
    rintro ⟨pair, hp, q, hq, rfl, rfl⟩
    exact ⟨hp, hq⟩
  case mpr => exact fun h => ⟨pair, h.left, p, h.right, rfl, rfl⟩

-- What a hold takes lies between its ends: no piece reaches into a hold that begins after the present.
theorem pair_between (hf : Forward now hold) (hs : ∀ p ∈ under, p.stop ≤ now)
    (hp : pair ∈ Cuts.pairs (holdPoints under hold)) (hq : p ∈ chosen under hold pair) :
    hold.start ≤ pair.1 ∧ pair.2 ≤ hold.stop := by
  have hm := Cuts.mem_of_pairs hp
  have hlt := Cuts.lt_of_pairs Cuts.points_sorted hp
  have hc := mem_chosen hq
  have hclip : ∀ a ∈ holdPoints under hold, a = hold.start ∨ min hold.start hold.stop ≤ a ∧ a ≤ hold.stop := by
    intro a ha
    have ha := Cuts.mem_points.mp ha
    simp only [mem_cons, mem_flatMap, not_mem_nil, or_false] at ha
    obtain rfl | rfl | ⟨q, _, rfl | rfl⟩ := ha
    · exact .inl rfl
    · exact .inr ⟨min_le_right _ _, le_refl _⟩
    · exact .inr ⟨min_le_min (le_max_right _ _) (le_refl _), min_le_right _ _⟩
    · exact .inr ⟨min_le_min (le_max_right _ _) (le_refl _), min_le_right _ _⟩
  obtain hf | ⟨hns, hne⟩ := hf
  case inl =>
    have hb : ∀ a ∈ holdPoints under hold, hold.start ≤ a ∧ a ≤ hold.stop := by
      intro a ha
      obtain rfl | ha := hclip a ha
      case inl => exact ⟨le_refl _, hf⟩
      case inr => exact ⟨min_eq_left hf ▸ ha.left, ha.right⟩
    exact ⟨(hb _ hm.left).left, (hb _ hm.right).right⟩
  case inr =>
    have hn : now ≤ pair.1 := by
      obtain he | he := hclip _ hm.left
      case inl => exact hns.trans he.ge
      case inr => exact (le_min hns hne).trans he.left
    exact absurd (hs p hc.left) (not_le.mpr (by linarith [hc.right.right]))

theorem filter_pair (hn : under.Nodup) :
    ((under.map fun q => (q, pair)).filter (·.1 = p)).map (·.2) = if p ∈ under then [pair] else [] := by
  induction under
  case nil => rfl
  case cons q under hi =>
    obtain ⟨hq, hn⟩ := nodup_cons.mp hn
    by_cases he : q = p
    case pos =>
      subst he
      have ht : ((under.map fun q' => (q', pair)).filter (·.1 = q)).map (·.2) = [] := by
        rw [hi hn, if_neg hq]
      simp [ht]
    case neg =>
      have hm : p ∈ q :: under ↔ p ∈ under := by simp [Ne.symm he]
      rw [map_cons, filter_cons_of_neg (by simpa using he), hi hn]
      simp only [hm]

-- A piece loses the spans of each hold that it is chosen for.
theorem cut_eq (hu : under.Nodup) : cut under held p =
    held.flatMap fun hold => (Cuts.pairs (holdPoints under hold)).filter (p ∈ chosen under hold ·) := by
  rw [cut]
  refine flatMap_congr fun hold _ => ?_
  rw [heldBy]
  induction Cuts.pairs (holdPoints under hold)
  case nil => rfl
  case cons pair pairs hi =>
    rw [flatMap_cons, filter_append, map_append, filter_pair (nodup_chosen hu), hi]
    by_cases hm : p ∈ chosen under hold pair <;> simp [hm]

theorem mem_cut (hu : under.Nodup) (h : pair ∈ cut under held p) :
    ∃ hold ∈ held, pair ∈ Cuts.pairs (holdPoints under hold) ∧ p ∈ chosen under hold pair := by
  rw [cut_eq hu] at h
  obtain ⟨hold, hh, hp⟩ := mem_flatMap.mp h
  have hf := mem_filter.mp hp
  exact ⟨hold, hh, hf.left, by simpa using hf.right⟩

theorem cut_apart (hu : under.Nodup) (hs : ∀ p ∈ under, p.stop ≤ now) (ha : Apart now held) :
    (cut under held p).Pairwise fun a b => a.2 ≤ b.1 := by
  rw [cut_eq hu, pairwise_flatMap]
  constructor
  case left => exact fun hold _ => (Cuts.pairs_apart Cuts.points_sorted).filter _
  case right =>
    refine ha.pairwise.imp_of_mem fun {h k} hh hk hhk a hm b hn => ?_
    have hm := mem_filter.mp hm
    have hn := mem_filter.mp hn
    have hb := pair_between (ha.forward h hh) hs hm.left (by simpa using hm.right)
    have hc := pair_between (ha.forward k hk) hs hn.left (by simpa using hn.right)
    exact hb.right.trans (hhk.trans hc.left)

theorem cut_within (hu : under.Nodup) (h : pair ∈ cut under held p) :
    p.start ≤ pair.1 ∧ pair.1 < pair.2 ∧ pair.2 ≤ p.stop := by
  obtain ⟨hold, _, hp, hc⟩ := mem_cut hu h
  have hm := mem_chosen hc
  exact ⟨hm.right.left, Cuts.lt_of_pairs Cuts.points_sorted hp, hm.right.right⟩

-- They are in order already.
theorem cut_sorted (hu : under.Nodup) (hs : ∀ p ∈ under, p.stop ≤ now) (ha : Apart now held) :
    (cut under held p).mergeSort (fun a b => toLex a ≤ toLex b) = cut under held p := by
  refine mergeSort_of_pairwise ((cut_apart hu hs ha).imp_of_mem fun {a b} ha _ hab => ?_)
  have hl := (cut_within hu ha).right.left
  exact decide_eq_true (Prod.Lex.toLex_le_toLex.mpr (.inl (hl.trans_le hab)))

theorem total_uncut {M : Type} [AddCommMonoid M] {w : Quantity ℚ M} (hu : under.Nodup)
    (hs : ∀ p ∈ under, p.stop ≤ now) (ha : Apart now held) (hp : p.start ≤ p.stop) :
    w.total (cut under held p) + w.total ((uncut p (cut under held p)).map fun u => (u.start, u.stop)) =
      w.of p.start p.stop := by
  have hr : (uncut p (cut under held p)).map (fun u => (u.start, u.stop)) =
      Cuts.rest p.start p.stop (cut under held p) := by
    rw [uncut, cut_sorted hu hs ha, map_map]
    exact map_id _
  rw [hr]
  refine Cuts.total_rest (cut_apart hu hs ha) (fun q hq => ?_) hp
  have hw := cut_within hu hq
  exact ⟨hw.left, hw.right.left.le, hw.right.right⟩

end Cut

end Stages
