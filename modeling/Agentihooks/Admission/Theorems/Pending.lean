import Mathlib.Data.Multiset.Range
import Agentihooks.Admission.Pending

namespace Admission

namespace Admit

variable {a : Admit} {s : State} {p : Progress} {t : Task}

-- The row of a task that is held already.
def found (a : Admit) (s : State) (p : Progress) (t : Task) : Option Row :=
  ((a.live s).lookup (a.slug, t.id)).or (p.written.lookup (a.slug, t.id))

def admitted (a : Admit) (p : Progress) (t : Task) (need : Resources) : Progress :=
  ⟨p.written.insert (a.slug, t.id) ⟨p.fresh, a.nowMs + a.policy.ttlMs, need, false⟩, p.fresh + 1⟩

-- All that is decided of a task: it is held, or it is turned away, or there is room for it.
inductive Decides (a : Admit) (s : State) (p : Progress) (t : Task) : Decision × Progress → Prop
  | held {row : Row} (h : a.found s p t = some row) : Decides a s p t (held row t.id, p)
  | refused {d : Decision} (h : a.found s p t = none) (ht : d.task = t.id)
    (ho : d.outcome = .impossible ∨ d.outcome = .deferred) : Decides a s p t (d, p)
  | admitted {need : Resources} (h : a.found s p t = none)
    (hf : a.full ((a.live s).keys.card + p.written.keys.card) ((a.across s).keys.card + p.written.keys.card) = none) :
    Decides a s p t
      (⟨t.id, .admitted, some p.fresh, a.nowMs + a.policy.ttlMs, ""⟩, a.admitted p t need)

theorem decides : Decides a s p t (a.decide s p t) := by
  unfold decide
  split
  case h_1 row h => exact .held h
  case h_2 h     =>
    split
    case h_1      => exact .refused h rfl (.inl rfl)
    case h_2 need =>
      split
      case h_1 => exact .refused h rfl (.inl rfl)
      case h_2 =>
        extract_lets written deadline
        split
        case h_1    => exact .refused h rfl (.inr rfl)
        case h_2 hf => exact .admitted h hf

-- Below both caps there is room for one more.
theorem room {mine across : ℕ} (h : a.full mine across = none) :
    (mine : ℤ) + 1 ≤ a.policy.swarmCap ∧ (across : ℤ) + 1 ≤ a.policy.globalCap := by
  unfold full at h
  split_ifs at h with hz hc hs
  simp only [not_or, not_le] at hc
  omega

-- What is written fits: it is in new places of the swarm, under new numbers, and within both caps.
structure Fits (a : Admit) (s : State) (p : Progress) : Prop where
  place   : ∀ q, ∀ row ∈ p.written.lookup q, q.1 = a.slug ∧ (a.live s).lookup q = none ∧ row.overtaken = false
  numbers : Multiset.range p.fresh = Multiset.range s.fresh + p.written.entries.map (·.2.reservation)
  caps    : p.written.keys.card ≠ 0 →
    ((a.live s).keys.card + p.written.keys.card : ℤ) ≤ a.policy.swarmCap ∧
    ((a.across s).keys.card + p.written.keys.card : ℤ) ≤ a.policy.globalCap

theorem Fits.start : Fits a s ⟨∅, s.fresh⟩ where
  place   := fun q row h => by simp at h
  numbers := by simp [show (∅ : Dict Place Row).entries = 0 from rfl]
  caps    := fun h => absurd (by simp) h

theorem Fits.admitted {need : Resources} (hp : Fits a s p) (h : a.found s p t = none)
    (hf : a.full ((a.live s).keys.card + p.written.keys.card) ((a.across s).keys.card + p.written.keys.card) = none) :
    Fits a s (a.admitted p t need) := by
  obtain ⟨hl, hw⟩ := Option.or_eq_none_iff.mp h
  have hn : (a.slug, t.id) ∉ p.written := Finmap.lookup_eq_none.mp hw
  have he := Finmap.entries_insert_of_notMem (b := (⟨p.fresh, a.nowMs + a.policy.ttlMs, need, false⟩ : Row)) hn
  have hc : (a.admitted p t need).written.keys.card = p.written.keys.card + 1 := by
    rw [Finmap.card_keys, Finmap.card_keys, Admit.admitted, he, Multiset.card_cons]
  refine ⟨fun q row hq => ?_, ?_, fun _ => ?_⟩
  · by_cases hs : q = (a.slug, t.id)
    case pos =>
      subst hs
      rw [Admit.admitted, Finmap.lookup_insert] at hq
      cases hq
      exact ⟨rfl, hl, rfl⟩
    case neg =>
      rw [Admit.admitted, Finmap.lookup_insert_of_ne _ hs] at hq
      exact hp.place q row hq
  · simp only [Admit.admitted, he, Multiset.map_cons, Multiset.range_succ, hp.numbers, Multiset.add_cons]
  · have hr := room hf
    rw [hc]
    push_cast at hr ⊢
    omega

theorem Fits.decide (hp : Fits a s p) : Fits a s (a.decide s p t).2 := by
  have h := decides (a := a) (s := s) (p := p) (t := t)
  generalize a.decide s p t = r at h ⊢
  cases h with
  | held _        => exact hp
  | refused _ _ _ => exact hp
  | admitted h hf => exact hp.admitted h hf

-- What is decided of one task: no outcome that only the end of a reservation has, as many admissions as rows written,
-- and for a task with a live row that row.
structure Told (a : Admit) (s : State) (p p' : Progress) (ds : List Decision) : Prop where
  outcomes : ∀ d ∈ ds, d.outcome ≠ .expired ∧ d.outcome ≠ .activated ∧ d.outcome ≠ .released
  written  : (ds.filter (·.outcome = .admitted)).length + p.written.keys.card = p'.written.keys.card
  held     : ∀ d ∈ ds, ∀ row ∈ (a.live s).lookup (a.slug, d.task), d = Admit.held row d.task

theorem told_decide : Told a s p (a.decide s p t).2 [(a.decide s p t).1] := by
  have h := decides (a := a) (s := s) (p := p) (t := t)
  generalize a.decide s p t = r at h ⊢
  cases h with
  | @held row h =>
    refine ⟨by simp [Admit.held], by simp [Admit.held], fun d hd row' hl => ?_⟩
    obtain rfl := List.mem_singleton.mp hd
    simp only [Admit.held] at hl
    rw [found, Option.mem_def.mp hl, Option.some_or] at h
    cases h
    rfl
  | refused h ht ho =>
    obtain ⟨hl, _⟩ := Option.or_eq_none_iff.mp h
    refine ⟨?_, ?_, fun d hd row hr => ?_⟩
    · obtain ho | ho := ho <;> simp [ho]
    · obtain ho | ho := ho <;> simp [ho]
    · obtain rfl := List.mem_singleton.mp hd
      rw [ht, hl] at hr
      cases hr
  | admitted h hf =>
    obtain ⟨hl, hw⟩ := Option.or_eq_none_iff.mp h
    refine ⟨by simp, ?_, fun d hd row hr => ?_⟩
    · have hn : (a.slug, t.id) ∉ p.written := Finmap.lookup_eq_none.mp hw
      rw [Finmap.card_keys, Finmap.card_keys, Admit.admitted, Finmap.entries_insert_of_notMem hn, Multiset.card_cons]
      simp [Nat.add_comm]
    · obtain rfl := List.mem_singleton.mp hd
      rw [hl] at hr
      cases hr

theorem Told.append {p₁ p₂ p₃ : Progress} {ds es : List Decision} (h : Told a s p₁ p₂ ds) (h' : Told a s p₂ p₃ es) :
    Told a s p₁ p₃ (ds ++ es) where
  outcomes := fun d hd => (List.mem_append.mp hd).elim (h.outcomes d) (h'.outcomes d)
  written  := by
    have hw := h.written
    have hw' := h'.written
    rw [List.filter_append, List.length_append]
    omega
  held     := fun d hd => (List.mem_append.mp hd).elim (h.held d) (h'.held d)

theorem fits_told {ts : List Task} (hp : Fits a s p) :
    Fits a s (a.decideAll s ts p).2 ∧ Told a s p (a.decideAll s ts p).2 (a.decideAll s ts p).1 := by
  induction ts generalizing p
  case nil          => exact ⟨hp, by simp [decideAll], by simp [decideAll], by simp [decideAll]⟩
  case cons t ts hi =>
    obtain ⟨hf, ht⟩ := hi (hp.decide (t := t))
    exact ⟨hf, told_decide.append ht⟩

theorem fits : Fits a s (a.outcome s).2 :=
  (fits_told .start).left

theorem told : Told a s ⟨∅, s.fresh⟩ (a.outcome s).2 (a.decisions s) :=
  (fits_told .start).right

theorem count_admitted : a.count s .admitted = (a.written s).keys.card := by
  have h := told.written (a := a) (s := s)
  simpa [count, written] using h

theorem count_activated : a.count s .activated = 0 := by
  simpa [count] using fun d hd => (told.outcomes d hd).right.left

theorem count_released : a.count s .released = 0 := by
  simpa [count] using fun d hd => (told.outcomes d hd).right.right

section Rows

variable {q : Place} {row : Row}

theorem lookup_expired : (a.expired s).lookup q = some row ↔
    q.1 = a.slug ∧ s.rows.lookup q = some row ∧ row.deadlineMs ≤ a.nowMs := by
  rw [expired, Finmap.lookup_restrict_eq_some, and_assoc]
  refine and_congr_right fun _ => ?_
  rw [and_comm]
  exact and_congr_right fun hr => by simp [hr]

theorem lookup_live : (a.live s).lookup q = some row ↔
    q.1 = a.slug ∧ s.rows.lookup q = some row ∧ a.nowMs < row.deadlineMs := by
  rw [live, Finmap.lookup_restrict_eq_some, and_assoc]
  refine and_congr_right fun _ => ?_
  rw [and_comm]
  exact and_congr_right fun hr => by simp [hr]

theorem lookup_across {d : ℤ} : (a.across s).lookup q = some d ↔ s.places.lookup q = some d ∧ a.nowMs < d := by
  rw [across, Finmap.lookup_restrict_eq_some, and_comm]
  exact and_congr_right fun hd => by simp [hd]

-- A row that stays is one of another swarm or one with time left.
theorem lookup_kept : (a.kept s).lookup q = some row ↔
    ∃ old, s.rows.lookup q = some old ∧ (q.1 = a.slug → a.nowMs < old.deadlineMs) ∧
      row = { old with overtaken := old.overtaken || old.deadlineMs ≤ a.nowMs } := by
  rw [kept, Finmap.lookup_mapValues, Option.map_eq_some_iff]
  refine exists_congr fun old => ?_
  rw [Finmap.lookup_restrict_eq_some, Finmap.mem_keys, Finmap.mem_iff]
  constructor
  case mp =>
    rintro ⟨⟨hn, ho⟩, rfl⟩
    refine ⟨ho, fun hs => ?_, rfl⟩
    by_contra hd
    exact hn ⟨old, lookup_expired.mpr ⟨hs, ho, not_lt.mp hd⟩⟩
  case mpr =>
    rintro ⟨ho, hd, rfl⟩
    refine ⟨⟨?_, ho⟩, rfl⟩
    rintro ⟨r, hr⟩
    obtain ⟨hs, hr, hle⟩ := lookup_expired.mp hr
    cases ho.symm.trans hr
    exact absurd (hd hs) (not_lt.mpr hle)

-- What is written takes the place of no row that stays.
theorem kept_of_written (h : (a.written s).lookup q = some row) : (a.kept s).lookup q = none := by
  obtain ⟨hs, hl, _⟩ := fits.place q row h
  refine Option.eq_none_iff_forall_not_mem.mpr fun r hr => ?_
  obtain ⟨old, ho, hd, _⟩ := lookup_kept.mp hr
  exact absurd (hl.symm.trans (lookup_live.mpr ⟨hs, ho, hd hs⟩)) (by simp)

theorem written_or_kept (q : Place) : (a.written s).lookup q = none ∨ (a.kept s).lookup q = none := by
  cases h : (a.written s).lookup q
  case none => exact .inl rfl
  case some => exact .inr (kept_of_written h)

theorem lookup_after : (a.after s).rows.lookup q = ((a.written s).lookup q).or ((a.kept s).lookup q) :=
  Finmap.lookup_union ..

theorem place_after : (a.after s).places.lookup q =
    (((a.written s).lookup q).map (·.deadlineMs)).or ((a.across s).lookup q) := by
  rw [Admit.after, Finmap.lookup_union, Finmap.lookup_mapValues]

def untouched (a : Admit) (s : State) : Dict Place Row :=
  s.rows.restrict (· ∉ (a.expired s).keys)

theorem expired_or_untouched (q : Place) :
    s.rows.lookup q = ((a.expired s).lookup q).or ((a.untouched s).lookup q) ∧
      ((a.expired s).lookup q = none ∨ (a.untouched s).lookup q = none) := by
  rw [untouched, Finmap.lookup_restrict]
  by_cases h : q ∈ (a.expired s).keys
  case pos =>
    obtain ⟨row, hr⟩ := Finmap.mem_iff.mp (Finmap.mem_keys.mp h)
    simp [h, hr, (lookup_expired.mp hr).right.left]
  case neg => simp [h, Finmap.lookup_eq_none_of_notMem_keys h]

-- The rows of a state are those that an admission drops and those that it leaves.
theorem entries_rows {α : Type} {f : Place → Row → α} (hf : ∀ q row b, f q { row with overtaken := b } = f q row) :
    s.rows.entries.map (fun x => f x.1 x.2) =
      (a.expired s).entries.map (fun x => f x.1 x.2) + (a.kept s).entries.map fun x => f x.1 x.2 := by
  have parts : s.rows.entries = (a.expired s).entries + (a.untouched s).entries :=
    Finmap.entries_of_parts (fun q => (expired_or_untouched q).left) fun q => (expired_or_untouched q).right
  rw [parts, Multiset.map_add, kept, Finmap.entries_mapValues, Multiset.map_map]
  simp only [Function.comp_def, hf]
  rfl

theorem entries_after : (a.after s).rows.entries = (a.written s).entries + (a.kept s).entries :=
  Finmap.entries_of_parts (fun _ => lookup_after) written_or_kept

end Rows

end Admit

section Sound

variable {s : State} {a : Admit} {e : End}

def stored (s : State) (slug : String) : ℕ :=
  (s.rows.entries.map (·.1.1)).count slug

-- What holds of every state: a reservation is stored or has ended, once; the totals count both; a row that nobody has
-- overtaken has its place, and a place with time left has its row.
structure Sound (s : State) : Prop where
  numbers   : s.rows.entries.map (·.2.reservation) + s.ended.map Ended.reservation = Multiset.range s.fresh
  totals    : ∀ slug, s.totals slug .admitted =
    stored s slug + s.totals slug .activated + s.totals slug .released + s.totals slug .expired
  placed    : ∀ q row, s.rows.lookup q = some row → (row.overtaken = false ↔ s.places.lookup q = some row.deadlineMs)
  overtaken : ∀ q row, s.rows.lookup q = some row → row.overtaken = true → row.deadlineMs ≤ s.clock
  rows      : ∀ q d, s.places.lookup q = some d → s.clock < d → ∃ row ∈ s.rows.lookup q, row.deadlineMs = d

theorem Sound.start {clock : ℤ} : Sound (start clock) where
  numbers   := rfl
  totals    := fun _ => rfl
  placed    := fun q row h => by simp [Admission.start] at h
  overtaken := fun q row h => by simp [Admission.start] at h
  rows      := fun q d h => by simp [Admission.start] at h

theorem count_slug {d : Dict Place Row} {slug : String} (h : ∀ q row, d.lookup q = some row → q.1 = slug)
    (other : String) : (d.entries.map (·.1.1)).count other = if other = slug then d.keys.card else 0 := by
  have hm : d.entries.map (·.1.1) = Multiset.replicate d.entries.card slug := by
    refine Multiset.eq_replicate.mpr ⟨Multiset.card_map .., fun x hx => ?_⟩
    obtain ⟨y, hy, rfl⟩ := Multiset.mem_map.mp hx
    exact h y.1 y.2 (Finmap.lookup_eq_some_iff.mpr hy)
  rw [hm, Multiset.count_replicate, Finmap.card_keys]
  simp [eq_comm]

theorem stored_after (slug : String) :
    stored (a.after s) slug + (if slug = a.slug then (a.expired s).keys.card else 0) =
      stored s slug + if slug = a.slug then (a.written s).keys.card else 0 := by
  have hrows := congrArg (Multiset.count slug) (Admit.entries_rows (a := a) (s := s) (f := fun q _ => q.1)
    fun _ _ _ => rfl)
  have hexp := count_slug (d := a.expired s) (fun _ _ h => (Admit.lookup_expired.mp h).left) slug
  have hwri := count_slug (d := a.written s) (fun q row h => (Admit.fits.place q row h).left) slug
  rw [Multiset.count_add] at hrows
  unfold stored
  rw [Admit.entries_after, Multiset.map_add, Multiset.count_add, hwri, hrows, hexp]
  omega

theorem totals_after (slug : String) (o : Outcome) :
    (a.after s).totals slug o = s.totals slug o + if slug = a.slug then a.count s o else 0 := by
  by_cases h : slug = a.slug
  case pos => subst h; simp [Admit.after]
  case neg => simp [Admit.after, h]

theorem Sound.admission (h : Sound s) : Sound (a.after s) where
  numbers   := by
    have hrows := Admit.entries_rows (a := a) (s := s) (f := fun _ row => row.reservation) fun _ _ _ => rfl
    have hnum : Multiset.range (a.after s).fresh =
        Multiset.range s.fresh + (a.written s).entries.map (·.2.reservation) := Admit.fits.numbers
    have hended : (a.after s).ended.map Ended.reservation =
        s.ended.map Ended.reservation + (a.expired s).entries.map (·.2.reservation) := by
      simp [Admit.after, Multiset.map_map]
    rw [Admit.entries_after, Multiset.map_add, hended, hnum, ← h.numbers, hrows]
    ac_rfl
  totals    := by
    intro slug
    have hs := stored_after (a := a) (s := s) slug
    have ht := h.totals slug
    have hexp : a.count s .expired = (a.expired s).keys.card := rfl
    simp only [totals_after, Admit.count_admitted, Admit.count_activated, Admit.count_released, hexp]
    split_ifs at hs ⊢ <;> omega
  placed    := by
    intro q row hr
    rw [Admit.lookup_after] at hr
    rw [Admit.place_after]
    cases hw : (a.written s).lookup q
    case some new =>
      rw [hw, Option.some_or] at hr
      cases hr
      simp [(Admit.fits.place q row hw).right.right]
    case none =>
      rw [hw, Option.none_or] at hr
      obtain ⟨old, ho, hs, rfl⟩ := Admit.lookup_kept.mp hr
      have hp := h.placed q old ho
      rw [Option.map_none, Option.none_or, Admit.lookup_across, ← hp]
      simp
  overtaken := by
    intro q row hr ho
    rw [Admit.lookup_after] at hr
    cases hw : (a.written s).lookup q
    case some new =>
      rw [hw, Option.some_or] at hr
      cases hr
      rw [(Admit.fits.place q row hw).right.right] at ho
      cases ho
    case none =>
      rw [hw, Option.none_or] at hr
      obtain ⟨old, hold, hs, rfl⟩ := Admit.lookup_kept.mp hr
      obtain ho | ho := (Bool.or_eq_true ..).mp ho
      · exact le_max_of_le_left (h.overtaken q old hold ho)
      · exact le_max_of_le_right (of_decide_eq_true ho)
  rows      := by
    intro q d hd hlt
    rw [Admit.place_after] at hd
    rw [Admit.lookup_after]
    cases hw : (a.written s).lookup q
    case some new =>
      rw [hw, Option.map_some, Option.some_or] at hd
      exact ⟨new, rfl, Option.some.inj hd⟩
    case none =>
      rw [hw, Option.map_none, Option.none_or] at hd
      obtain ⟨hd, hnow⟩ := Admit.lookup_across.mp hd
      obtain ⟨row, hr, rfl⟩ := h.rows q d hd (lt_of_le_of_lt (le_max_left ..) hlt)
      exact ⟨_, Admit.lookup_kept.mpr ⟨row, hr, fun _ => hnow, rfl⟩, rfl⟩

theorem stored_erase {q : Place} {row : Row} (h : s.rows.lookup q = some row) (slug : String) :
    stored s slug = ((s.rows.erase q).entries.map (·.1.1)).count slug + if slug = q.1 then 1 else 0 := by
  rw [stored, Finmap.entries_erase h, Multiset.map_cons, Multiset.count_cons]

theorem Sound.ending (h : Sound s) : Sound (e.after s) := by
  unfold End.after
  split
  case h_1         => exact h
  case h_2 row hrow =>
    obtain ⟨hr, _⟩ := Option.filter_eq_some_iff.mp hrow
    refine ⟨?_, fun slug => ?_, fun q r hq => ?_, fun q r hq => ?_, fun q d hd hlt => ?_⟩
    · have hn := h.numbers
      rw [Finmap.entries_erase hr, Multiset.map_cons] at hn
      rw [← hn, Multiset.map_cons]
      simp only [Multiset.add_cons, Multiset.cons_add]
    · have hs : stored s slug = ((s.rows.erase e.place).entries.map (·.1.1)).count slug +
          if slug = e.slug then 1 else 0 := stored_erase hr slug
      have ht := h.totals slug
      rw [hs] at ht
      unfold stored
      by_cases he : slug = e.slug
      case pos =>
        subst he
        rw [if_pos rfl] at ht
        cases ha : e.activated <;> simp [End.outcome, ha] <;> omega
      case neg =>
        rw [if_neg he] at ht
        simp only [Function.update_of_ne he]
        omega
    · obtain ⟨hne, hq⟩ := Finmap.lookup_erase_eq_some.mp hq
      rw [h.placed q r hq, Finmap.lookup_erase_eq_some]
      exact ⟨fun hp => ⟨hne, hp⟩, And.right⟩
    · exact h.overtaken q r (Finmap.lookup_erase_eq_some.mp hq).right
    · obtain ⟨hne, hd⟩ := Finmap.lookup_erase_eq_some.mp hd
      obtain ⟨r, hq, hrd⟩ := h.rows q d hd hlt
      exact ⟨r, Finmap.lookup_erase_eq_some.mpr ⟨hne, hq⟩, hrd⟩

theorem Sound.step {event : Event} (h : Sound s) : Sound (step s event) := by
  cases event
  case admission => exact h.admission
  case ending    => exact h.ending

end Sound

section Kept

variable {s : State} {a : Admit} {e : End} {row : Row}

-- The places of reservations with time left at the latest reading, of one swarm or of all.
def unexpired (s : State) (p : Place → Prop) [DecidablePred p] : Finset Place :=
  s.rows.keys.filter fun q => p q ∧ (s.rows.lookup q).any (s.clock < ·.deadlineMs)

theorem mem_unexpired {p : Place → Prop} [DecidablePred p] {q : Place} (h : q ∈ unexpired s p) :
    p q ∧ ∃ row ∈ s.rows.lookup q, s.clock < row.deadlineMs := by
  obtain ⟨_, hp, ha⟩ := Finset.mem_filter.mp h
  exact ⟨hp, by simpa [Option.any_eq_true] using ha⟩

-- What an event leaves as it should.
structure Kept (s : State) (event : Event) : Prop where
  caps      : ∀ a, event = .admission a → a.written s ≠ ∅ →
    ((unexpired (step s event) (·.1 = a.slug)).card : ℤ) ≤ a.policy.swarmCap ∧
    ((unexpired (step s event) fun _ => True).card : ℤ) ≤ a.policy.globalCap
  paired    : ∀ q d, (step s event).clock < d →
    ((∃ row ∈ (step s event).rows.lookup q, row.deadlineMs = d) ↔ (step s event).places.lookup q = some d)
  once      : (step s event).rows.entries.map (·.2.reservation) + (step s event).ended.map Ended.reservation =
    Multiset.range (step s event).fresh
  totals    : ∀ slug, (step s event).totals slug .admitted = stored (step s event) slug +
    (step s event).totals slug .activated + (step s event).totals slug .released + (step s event).totals slug .expired
  activated : ∀ e, event = .ending e → e.activated → ∀ row ∈ e.row s, s.places.lookup e.place = some row.deadlineMs
  replayed  : ∀ a, event = .admission a → ∀ d ∈ a.decisions s, ∀ row ∈ s.rows.lookup (a.slug, d.task),
    a.nowMs < row.deadlineMs → d.outcome = .replayed ∧ d.reservation = some row.reservation ∧
      ∃ row' ∈ (step s event).rows.lookup (a.slug, d.task), row'.reservation = row.reservation

-- An activation of a reservation that no admission has overtaken.
def Punctual (s : State) : Event → Prop
  | .admission _ => True
  | .ending e    => e.activated → ∀ row ∈ e.row s, row.overtaken = false

theorem Sound.paired (h : Sound s) (q : Place) (d : ℤ) (hd : s.clock < d) :
    (∃ row ∈ s.rows.lookup q, row.deadlineMs = d) ↔ s.places.lookup q = some d := by
  constructor
  case mp =>
    rintro ⟨row, hr, rfl⟩
    refine (h.placed q row hr).mp ?_
    by_contra ho
    exact absurd (h.overtaken q row hr (by simpa using ho)) (not_le.mpr hd)
  case mpr => exact fun hp => h.rows q d hp hd

theorem unexpired_subset {p : Place → Prop} [DecidablePred p] {d : Finset Place}
    (h : ∀ q row, p q → (a.kept s).lookup q = some row → max s.clock a.nowMs < row.deadlineMs → q ∈ d) :
    unexpired (a.after s) p ⊆ d ∪ (a.written s).keys := by
  intro q hq
  obtain ⟨hp, row, hr, hlt⟩ := mem_unexpired hq
  rw [Option.mem_def, Admit.lookup_after] at hr
  cases hw : (a.written s).lookup q
  case some new => exact Finset.mem_union_right _ (Finmap.mem_keys.mpr (Finmap.mem_of_lookup_eq_some hw))
  case none     =>
    rw [hw, Option.none_or] at hr
    exact Finset.mem_union_left _ (h q row hp hr hlt)

theorem caps_after (h : Sound s) (hw : a.written s ≠ ∅) :
    ((unexpired (a.after s) (·.1 = a.slug)).card : ℤ) ≤ a.policy.swarmCap ∧
    ((unexpired (a.after s) fun _ => True).card : ℤ) ≤ a.policy.globalCap := by
  have hc : (a.written s).keys.card ≠ 0 := by
    intro hc
    refine hw (Finmap.ext_lookup fun q => ?_)
    rw [Finmap.lookup_empty]
    exact Finmap.lookup_eq_none_of_notMem_keys (by simp [Finset.card_eq_zero.mp hc])
  obtain ⟨hswarm, hglobal⟩ := Admit.fits.caps hc
  have swarm : unexpired (a.after s) (·.1 = a.slug) ⊆ (a.live s).keys ∪ (a.written s).keys := by
    refine unexpired_subset fun q row hs hr hlt => ?_
    obtain ⟨old, ho, _, rfl⟩ := Admit.lookup_kept.mp hr
    exact Finmap.mem_keys.mpr (Finmap.mem_of_lookup_eq_some (Admit.lookup_live.mpr ⟨hs, ho, (max_lt_iff.mp hlt).right⟩))
  have global : unexpired (a.after s) (fun _ => True) ⊆ (a.across s).keys ∪ (a.written s).keys := by
    refine unexpired_subset fun q row _ hr hlt => ?_
    obtain ⟨old, ho, _, rfl⟩ := Admit.lookup_kept.mp hr
    obtain ⟨hclock, hnow⟩ := max_lt_iff.mp hlt
    have hp := (h.paired q old.deadlineMs hclock).mp ⟨old, ho, rfl⟩
    exact Finmap.mem_keys.mpr (Finmap.mem_of_lookup_eq_some (Admit.lookup_across.mpr ⟨hp, hnow⟩))
  have hs := (Finset.card_le_card swarm).trans (Finset.card_union_le ..)
  have hg := (Finset.card_le_card global).trans (Finset.card_union_le ..)
  simp only [Admit.written] at hs hg
  omega

theorem replayed (h : a.nowMs < row.deadlineMs) {d : Decision} (hd : d ∈ a.decisions s)
    (hr : s.rows.lookup (a.slug, d.task) = some row) :
    d.outcome = .replayed ∧ d.reservation = some row.reservation ∧
      ∃ row' ∈ (a.after s).rows.lookup (a.slug, d.task), row'.reservation = row.reservation := by
  have held := Admit.told.held d hd row (Admit.lookup_live.mpr ⟨rfl, hr, h⟩)
  have hk := Admit.lookup_kept.mpr ⟨row, hr, fun _ => h, rfl⟩
  obtain hw | hn := Admit.written_or_kept (a := a) (s := s) (a.slug, d.task)
  · have after : (a.after s).rows.lookup (a.slug, d.task) =
        some { row with overtaken := row.overtaken || row.deadlineMs ≤ a.nowMs } := by
      rw [Admit.lookup_after, hw, Option.none_or, hk]
    exact ⟨congrArg Decision.outcome held, congrArg Decision.reservation held, _, after, rfl⟩
  · exact absurd (hn.symm.trans hk) (by simp)

-- Only an activation can leave a state as it should not, for which its row must have lost its place.
theorem Sound.kept_iff {event : Event} (h : Sound s) : Kept s event ↔ Punctual s event := by
  constructor
  case mp =>
    intro hk
    cases event
    case admission a => trivial
    case ending e    =>
      intro ha row hrow
      obtain ⟨hr, _⟩ := Option.filter_eq_some_iff.mp hrow
      exact (h.placed _ row hr).mpr (hk.activated e rfl ha row hrow)
  case mpr =>
    intro hp
    have after : Sound (Admission.step s event) := h.step
    refine ⟨?_, after.paired, after.numbers, after.totals, ?_, ?_⟩
    · rintro a rfl hw
      exact caps_after h hw
    · rintro e rfl ha row hrow
      obtain ⟨hr, _⟩ := Option.filter_eq_some_iff.mp hrow
      exact (h.placed _ row hr).mp (hp ha row hrow)
    · rintro a rfl d hd row hr hlt
      exact replayed hlt hd hr

end Kept

theorem pending_iff (clock : ℤ) (es : List Event) :
    Run.Along step Kept (start clock) es ↔ Run.Along step Punctual (start clock) es := by
  have sound : Sound (start clock) := .start
  generalize start clock = s at sound
  induction es generalizing s
  case nil          => simp
  case cons e es hi => exact and_congr sound.kept_iff (hi (step s e) sound.step)

section Overtaken

def oneAttempt : Policy where
  globalCap := 1
  swarmCap  := 1
  ttlMs     := 100
  templates := [⟨"small", 512, 500⟩]
  default   := ⟨256, 250⟩

def attempt (slug : String) (nowMs : ℤ) : Admit :=
  ⟨oneAttempt, slug, [⟨"t", .amounts none none⟩], 1, nowMs⟩

-- The place of swarm a's reservation is with swarm b when a activates it.
theorem pending_overtaken : ¬Run.Along step Kept (start 0)
    [.admission (attempt "a" 0), .admission (attempt "b" 100), .ending ⟨"a", "t", 0, true⟩] := by
  intro h
  have held := h.right.right.left.activated ⟨"a", "t", 0, true⟩ rfl rfl _ rfl
  exact absurd held (by decide)

end Overtaken

end Admission