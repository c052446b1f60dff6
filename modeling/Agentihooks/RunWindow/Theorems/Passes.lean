import Agentihooks.RunWindow.Passes
import Mathlib.Data.List.Induction

-- What the passes of a run keep to, whatever the order of windows, modes and crashes.

namespace RunWindow

variable {slug : String} {digest : String → String} {spoken : ℤ → String}
variable {s : State} {p : Pass} {c : Cut} {bounds : ℤ × ℤ} {mode : Mode} {w : Write}

-- Messages of one world are told apart by what they are about.
structure Apart (slug : String) (digest : String → String) (messages : List Message) : Prop where
  ids  : (messages.map fun m => (m.world, m.id)).Nodup
  refs : ∀ m ∈ messages, m.id = digest (m.ref.text slug)

theorem Apart.nodup {messages : List Message} (h : Apart slug digest messages) :
    (messages.map fun m => (m.world, m.ref)).Nodup := by
  have hi := h.ids
  rw [List.Nodup, List.pairwise_map] at hi ⊢
  refine hi.imp_of_mem fun {a b} ha hb hn he => hn ?_
  rw [Prod.mk.injEq] at he ⊢
  exact ⟨he.1, by rw [h.refs a ha, h.refs b hb, he.2]⟩

-- A write that sends carries the digest of its reference.
def Write.Signed (slug : String) (digest : String → String) : Write → Prop
  | .send m => m.id = digest (m.ref.text slug)
  | _       => True

theorem Apart.apply (h : Apart slug digest s.messages) (hw : w.Signed slug digest) :
    Apart slug digest (apply s w).messages := by
  cases w with
  | save   => exact h
  | log    => exact h
  | notify => exact h
  | send m =>
    simp only [RunWindow.apply]
    split
    case isTrue => exact h
    case isFalse hn =>
      constructor
      case ids =>
        rw [List.map_append, List.nodup_append]
        refine ⟨h.ids, by simp, fun x hx y hy he => hn ?_⟩
        obtain ⟨m', hm, rfl⟩ := List.mem_map.mp hx
        rw [List.mem_singleton.mp hy, Prod.mk.injEq] at he
        exact ⟨m', hm, he⟩
      case refs =>
        intro m' hm
        cases List.mem_append.mp hm with
        | inl hm => exact h.refs m' hm
        | inr hm => exact List.mem_singleton.mp hm ▸ hw

theorem signed_sendOnce {address text task : String} {ref : Ref} :
    (sendOnce slug digest p address text ref task).Signed slug digest :=
  rfl

theorem signed_gate (h : w ∈ gate slug digest spoken mode s p bounds) : w.Signed slug digest := by
  unfold gate at h
  cases List.mem_append.mp h with
  | inl h =>
    split at h
    case isTrue =>
      obtain ⟨a, _, rfl⟩ := List.mem_map.mp h
      exact signed_sendOnce
    case isFalse => cases h
  | inr h =>
    split at h
    case isTrue => rw [List.mem_singleton.mp h]; trivial
    case isFalse => cases h

theorem signed_report {marks : Marks} (h : w ∈ report slug digest spoken marks mode p bounds) : w.Signed slug digest := by
  unfold report publish at h
  split at h
  case isTrue => cases h
  case isFalse =>
    simp only [List.cons_append, List.nil_append, List.mem_cons, List.not_mem_nil, or_false] at h
    rcases h with rfl | rfl | rfl
    · exact signed_sendOnce
    · trivial
    · trivial

theorem signed_writes (h : w ∈ writes slug digest spoken s p) : w.Signed slug digest := by
  unfold writes at h
  split at h
  case h_1 => cases h
  case h_2 bounds _ =>
  split at h
  case isTrue => cases h
  case isFalse =>
  rw [List.mem_cons] at h
  rcases h with rfl | h
  · trivial
  split at h
  case isTrue =>
    unfold beforeCutoff at h
    split at h
    case isTrue => cases h
    case isFalse =>
      simp only [List.mem_cons, List.not_mem_nil, or_false] at h
      rcases h with rfl | rfl
      · exact signed_sendOnce
      · trivial
  case isFalse =>
    unfold atCutoff at h
    split at h
    case h_1 => exact signed_report h
    case h_2 =>
      rw [List.mem_append, List.mem_cons] at h
      rcases h with h | rfl | h
      · exact signed_gate h
      · trivial
      · exact signed_report h

-- A mark that a pass makes of the window it started from loses neither the cutoff nor the report.
structure Keeps (before after : Marks) : Prop where
  window    : after.window = before.window
  cutoff    : ∀ x, before.cutoff = some x → after.cutoff = some x
  published : before.published.isSome → after.published.isSome

theorem Keeps.refl {marks : Marks} : Keeps marks marks :=
  ⟨rfl, fun _ h => h, id⟩

theorem marksOf_window : (marksOf s p bounds).window = bounds := by
  unfold marksOf
  cases hm : s.marks.filter (·.window = bounds) with
  | none   => rfl
  | some m => simpa using (Option.filter_eq_some_iff.mp hm).2

theorem marksOf_keeps {marks : Marks} (hs : s.marks = some marks) (hw : marks.window = bounds) :
    Keeps marks (marksOf s p bounds) := by
  have hf : s.marks.filter (·.window = bounds) = some marks := by simp [hs, hw]
  refine ⟨marksOf_window.trans hw.symm, fun x hx => ?_, fun hx => ?_⟩
  · simpa [marksOf, hf] using hx
  · simpa [marksOf, hf] using hx

theorem save_report {marks m : Marks} (h : .save m ∈ report slug digest spoken marks mode p bounds) : Keeps marks m := by
  unfold report publish at h
  split at h
  case isTrue => cases h
  case isFalse =>
    simp only [sendOnce, List.cons_append, List.nil_append, List.mem_cons, reduceCtorEq, Write.save.injEq, List.not_mem_nil,
      or_false, false_or] at h
    exact h ▸ ⟨rfl, fun _ hx => hx, fun _ => rfl⟩

theorem not_save_gate {m : Marks} : .save m ∉ gate slug digest spoken mode s p bounds := by
  intro h
  unfold gate at h
  cases List.mem_append.mp h with
  | inl h =>
    split at h
    case isTrue =>
      obtain ⟨a, _, he⟩ := List.mem_map.mp h
      cases he
    case isFalse => cases h
  | inr h =>
    split at h
    case isTrue  => cases List.mem_singleton.mp h
    case isFalse => cases h

-- Every mark that a pass makes is of its own window, which has begun.
theorem save_writes {m : Marks} (h : .save m ∈ writes slug digest spoken s p) :
    span p.window = some m.window ∧ m.window.1 ≤ p.nowMs ∧ Keeps (marksOf s p m.window) m := by
  suffices hk : ∀ bounds, span p.window = some bounds → bounds.1 ≤ p.nowMs → Keeps (marksOf s p bounds) m →
      span p.window = some m.window ∧ m.window.1 ≤ p.nowMs ∧ Keeps (marksOf s p m.window) m by
    unfold writes at h
    split at h
    case h_1 => cases h
    case h_2 bounds hb =>
    split at h
    case isTrue => cases h
    case isFalse hn =>
    refine hk bounds hb (not_lt.mp hn) ?_
    rw [List.mem_cons] at h
    rcases h with h | h
    · cases h
      exact .refl
    split at h
    case isTrue =>
      unfold beforeCutoff at h
      split at h
      case isTrue => cases h
      case isFalse =>
        simp only [alert, sendOnce, List.mem_cons, reduceCtorEq, Write.save.injEq, List.not_mem_nil, or_false, false_or] at h
        exact h ▸ ⟨rfl, fun _ hx => hx, id⟩
    case isFalse =>
      unfold atCutoff at h
      split at h
      case h_1 => exact save_report h
      case h_2 hc =>
        rw [List.mem_append, List.mem_cons] at h
        rcases h with h | h | h
        · exact absurd h not_save_gate
        · cases h
          exact ⟨rfl, fun x hx => (by cases hc.symm.trans hx), id⟩
        · have hr := save_report h
          exact ⟨hr.window, fun x hx => (by cases hc.symm.trans hx), hr.published⟩
  intro bounds hb hn hm
  have hw : m.window = bounds := hm.window.trans marksOf_window
  exact ⟨hw ▸ hb, hw ▸ hn, hw ▸ hm⟩

-- A write of the final report or of the ledger's notice.
def Write.Reports : Write → Prop
  | .notify _ => True
  | .send m   => ∃ bounds, m.ref = .final bounds
  | _         => False

theorem not_reports_gate (h : w ∈ gate slug digest spoken mode s p bounds) : ¬ w.Reports := by
  unfold gate at h
  cases List.mem_append.mp h with
  | inl h =>
    split at h
    case isTrue =>
      obtain ⟨a, _, rfl⟩ := List.mem_map.mp h
      rintro ⟨_, he⟩
      cases he
    case isFalse => cases h
  | inr h =>
    split at h
    case isTrue => rw [List.mem_singleton.mp h]; exact id
    case isFalse => cases h

-- A pass that reports has made the mark of the cutoff before, and makes that of the report right after.
structure Reporting (slug : String) (digest : String → String) (spoken : ℤ → String) (s : State) (p : Pass)
    (bounds : ℤ × ℤ) (marks : Marks) (mode : Mode) (front : List Write) : Prop where
  all    : writes slug digest spoken s p =
    front ++ (publish slug digest spoken mode p bounds ++ [.save { marks with published := some p.nowMs }])
  quiet  : ∀ w ∈ front, ¬ w.Reports
  marked : .save marks ∈ front
  window : marks.window = bounds
  cutoff : ∃ t, marks.cutoff = some (t, mode)
  fresh  : (marksOf s p bounds).published = none

theorem writes_reporting (slug : String) (digest : String → String) (spoken : ℤ → String) (s : State) (p : Pass) :
    (∀ w ∈ writes slug digest spoken s p, ¬ w.Reports) ∨
    ∃ bounds marks mode front, Reporting slug digest spoken s p bounds marks mode front := by
  cases hb : span p.window with
  | none => exact .inl (by simp [writes, hb])
  | some bounds =>
  by_cases hn : p.nowMs < bounds.1
  case pos => exact .inl (by simp [writes, hb, hn])
  case neg =>
  by_cases he : p.nowMs < bounds.2
  case pos =>
    refine .inl fun w hw => ?_
    simp only [writes, hb, hn, he, if_false, if_true, List.mem_cons] at hw
    rcases hw with rfl | hw
    · exact id
    · unfold beforeCutoff at hw
      split at hw
      case isTrue => cases hw
      case isFalse =>
        simp only [List.mem_cons, List.not_mem_nil, or_false] at hw
        rcases hw with rfl | rfl
        · rintro ⟨_, he⟩
          cases he
        · exact id
  case neg =>
  cases hp : (marksOf s p bounds).published with
  | some t =>
    refine .inl fun w hw => ?_
    simp only [writes, hb, hn, he, if_false, atCutoff, List.mem_cons] at hw
    rcases hw with rfl | hw
    · exact id
    · split at hw
      case h_1 => simp [report, hp] at hw
      case h_2 =>
        simp only [report, hp, Option.isSome_some, if_true, List.mem_append, List.mem_cons, List.not_mem_nil, or_false] at hw
        rcases hw with hw | rfl
        · exact not_reports_gate hw
        · exact id
  | none =>
    right
    cases hc : (marksOf s p bounds).cutoff with
    | some decided =>
      refine ⟨bounds, marksOf s p bounds, decided.2, [.save (marksOf s p bounds)], ?_, ?_, by simp, marksOf_window,
        ⟨decided.1, hc⟩, hp⟩
      · simp [writes, hb, hn, he, atCutoff, hc, report, hp]
      · intro w hw
        rw [List.mem_singleton.mp hw]
        exact id
    | none =>
      let decided := { marksOf s p bounds with cutoff := some (p.nowMs, configured p.gates) }
      refine ⟨bounds, decided, configured p.gates,
        .save (marksOf s p bounds) :: (gate slug digest spoken (configured p.gates) s p bounds ++ [.save decided]),
        ?_, ?_, by simp, marksOf_window (p := p), ⟨p.nowMs, rfl⟩, hp⟩
      · simp [writes, hb, hn, he, atCutoff, hc, report, hp, decided]
      · intro w hw
        rw [List.mem_cons, List.mem_append, List.mem_singleton] at hw
        rcases hw with rfl | hw | rfl
        · exact id
        · exact not_reports_gate hw
        · exact id

-- What of a pass was made before a report.
theorem Reporting.made {marks : Marks} {front l₁ l₂ : List Write}
    (h : Reporting slug digest spoken s c.pass bounds marks mode front)
    (he : made slug digest spoken s c = l₁ ++ w :: l₂) (hw : w.Reports) :
    (∃ mid last, publish slug digest spoken mode c.pass bounds ++ [.save { marks with published := some c.pass.nowMs }] =
      mid ++ w :: (l₂ ++ last) ∧ l₁ = front ++ mid) := by
  have hs : l₁ ++ w :: (l₂ ++ (writes slug digest spoken s c.pass).drop c.done) =
      front ++ (publish slug digest spoken mode c.pass bounds ++
        [.save { marks with published := some c.pass.nowMs }]) := by
    have ht := List.take_append_drop c.done (writes slug digest spoken s c.pass)
    unfold RunWindow.made at he
    rw [he] at ht
    rw [← h.all]
    simpa using ht
  obtain ⟨mid, rfl, hr⟩ | ⟨mid, rfl, hr⟩ := List.append_eq_append_iff.mp hs
  case inl =>
    cases mid with
    | nil => exact ⟨[], _, by simpa using hr.symm, by simp⟩
    | cons first mid =>
      rw [List.cons_append, List.cons.injEq] at hr
      exact absurd (hr.1 ▸ hw) (h.quiet first (by simp))
  case inr => exact ⟨mid, _, hr, rfl⟩

theorem mem_made (h : w ∈ made slug digest spoken s c) : w ∈ writes slug digest spoken s c.pass :=
  List.mem_of_mem_take h

-- A report comes after the mark of its cutoff, is of the mode of that mark, and the notice is followed by nothing but
-- the mark of the report.
theorem reported {l₁ l₂ : List Write} (he : made slug digest spoken s c = l₁ ++ w :: l₂) (hw : w.Reports) :
    ∃ bounds marks mode front, Reporting slug digest spoken s c.pass bounds marks mode front ∧ .save marks ∈ l₁ ∧
      (l₁ = front ∧ w = sendOnce slug digest c.pass c.pass.watchdog
          (final slug spoken mode bounds c.pass.tasks (inFlight c.pass.tasks c.pass.atReport)) (.final bounds) "" ∨
        (∃ sent, l₁ = front ++ [sent] ∧ ∀ n, sent ≠ .notify n) ∧
          w = .notify (notice spoken mode bounds c.pass.tasks (inFlight c.pass.tasks c.pass.atReport) c.pass.watchdog) ∧
          (l₂ = [] ∨ l₂ = [.save { marks with published := some c.pass.nowMs }])) := by
  have hm : w ∈ writes slug digest spoken s c.pass := mem_made (by rw [he]; simp)
  obtain hq | ⟨bounds, marks, mode, front, hr⟩ := writes_reporting slug digest spoken s c.pass
  case inl => exact absurd hw (hq w hm)
  case inr =>
    obtain ⟨mid, last, hp, hl⟩ := hr.made he hw
    refine ⟨bounds, marks, mode, front, hr, hl ▸ List.mem_append_left _ hr.marked, ?_⟩
    rw [publish, List.cons_append, List.cons_append, List.nil_append] at hp
    match mid with
    | [] =>
      rw [List.nil_append, List.cons.injEq] at hp
      exact .inl ⟨by simpa using hl, hp.1.symm⟩
    | [sent] =>
      rw [List.cons_append, List.cons.injEq, List.nil_append, List.cons.injEq] at hp
      obtain ⟨rfl, rfl, hp⟩ := hp
      refine .inr ⟨⟨_, hl, fun n hn => by cases hn⟩, rfl, ?_⟩
      cases l₂ with
      | nil         => exact .inl rfl
      | cons x rest =>
        rw [List.cons_append, List.cons.injEq] at hp
        have hn := (List.append_eq_nil_iff.mp hp.2.symm).1
        exact .inr (by rw [← hp.1, hn])
    | _ :: _ :: mid =>
      rw [List.cons_append, List.cons_append, List.cons.injEq, List.cons.injEq] at hp
      have hs : w = .save { marks with published := some c.pass.nowMs } := by
        have := hp.2.2
        cases mid with
        | nil       => exact (List.cons.inj this).1.symm
        | cons _ mid => simp at this
      exact absurd hw (by rw [hs]; exact id)

theorem fold_marks (ws : List Write) :
    (ws.foldl apply s).marks = s.marks ∨ ∃ m, .save m ∈ ws ∧ (ws.foldl apply s).marks = some m := by
  induction ws using List.reverseRecOn
  case nil => exact .inl rfl
  case append_singleton ws w ih =>
    have hi : (ws.foldl apply s).marks = s.marks ∨ ∃ m, .save m ∈ ws ++ [w] ∧ (ws.foldl apply s).marks = some m :=
      ih.imp_right fun ⟨m, hm, he⟩ => ⟨m, List.mem_append_left _ hm, he⟩
    rw [List.foldl_append]
    cases w with
    | save m   => exact .inr ⟨m, by simp, rfl⟩
    | log      => exact hi
    | notify   => exact hi
    | send m   =>
      simp only [List.foldl_cons, List.foldl_nil, apply]
      split
      case isTrue  => exact hi
      case isFalse => exact hi

-- A pass that drops the marks of a window: one of another window that has begun, once it wrote anything.
def Disturbs (bounds : ℤ × ℤ) (c : Cut) : Prop :=
  ∃ other, other ≠ bounds ∧ span c.pass.window = some other ∧ other.1 ≤ c.pass.nowMs ∧ 0 < c.done

-- A pass that does not drop the marks of a window keeps the cutoff and the report.
theorem step_keeps {marks : Marks} (hs : s.marks = some marks) (hd : ¬ Disturbs marks.window c) :
    ∃ m, (step slug digest spoken s c).marks = some m ∧ Keeps marks m := by
  obtain he | ⟨m, hm, he⟩ := fold_marks (s := s) (made slug digest spoken s c)
  case inl => exact ⟨marks, by rw [step, he, hs], .refl⟩
  case inr =>
    obtain ⟨hb, hn, hk⟩ := save_writes (mem_made hm)
    have hc : 0 < c.done := by
      by_contra hc
      have hz : c.done = 0 := by omega
      simp [made, hz] at hm
    have hw : marks.window = m.window := by
      by_contra hw
      exact hd ⟨m.window, fun he => hw he.symm, hb, hn, hc⟩
    have hk' := marksOf_keeps (p := c.pass) hs hw
    exact ⟨m, he, ⟨hw.symm, fun x hx => hk.cutoff x (hk'.cutoff x hx), fun hx => hk.published (hk'.published hx)⟩⟩

variable {pre mid post cs : List Cut}

theorem run_keeps {marks : Marks} (hs : s.marks = some marks) (hd : ∀ c ∈ cs, ¬ Disturbs marks.window c) :
    ∃ m, (Run.run (step slug digest spoken) s cs).marks = some m ∧ Keeps marks m := by
  induction cs using List.reverseRecOn
  case nil => exact ⟨marks, hs, .refl⟩
  case append_singleton cs c ih =>
    obtain ⟨m, hm, hk⟩ := ih fun c hc => hd c (List.mem_append_left _ hc)
    have hw : ¬ Disturbs m.window c := hk.window ▸ hd c (by simp)
    rw [Run.run_concat]
    obtain ⟨m', hm', hk'⟩ : ∃ m', (step slug digest spoken _ c).marks = some m' ∧ Keeps m m' := step_keeps hm hw
    exact ⟨m', hm', ⟨hk'.window.trans hk.window, fun x hx => hk'.cutoff x (hk.cutoff x hx),
      fun hx => hk'.published (hk.published hx)⟩⟩

theorem apart_run : Apart slug digest (Run.run (step slug digest spoken) init cs).messages := by
  induction cs using List.reverseRecOn
  case nil => exact ⟨by simp [init], by simp [init]⟩
  case append_singleton cs c ih =>
    rw [Run.run_concat, step]
    exact List.foldlRecOn (motive := fun s => Apart slug digest s.messages) _ apply ih
      fun _ hs _ hw => hs.apply (signed_writes (mem_made hw))

variable (slug digest spoken)

-- What the pass after the given ones writes.
def madeAt (pre : List Cut) (c : Cut) : List Write :=
  made slug digest spoken (Run.run (step slug digest spoken) init pre) c

-- The cutoff of a window is recorded under a mode.
def Decided (s : State) (bounds : ℤ × ℤ) (mode : Mode) : Prop :=
  ∃ marks t, s.marks = some marks ∧ marks.window = bounds ∧ marks.cutoff = some (t, mode)

-- A report of a window under a mode.
def Write.Of (bounds : ℤ × ℤ) (mode : Mode) : Write → Prop
  | .notify n => ∃ tasks flying watchdog, n = notice spoken mode bounds tasks flying watchdog
  | .send m   => m.ref = .final bounds ∧ ∃ tasks flying, m.text = final slug spoken mode bounds tasks flying
  | _         => False

-- A report that speaks of a window.
def Write.About (bounds : ℤ × ℤ) : Write → Prop
  | .notify n => n.window = bounds
  | .send m   => m.ref = .final bounds
  | _         => False

-- What the passes of a run keep to.
structure Ends (cs : List Cut) : Prop where
  once     : ((Run.run (step slug digest spoken) init cs).messages.map fun m => (m.world, m.ref)).Nodup
  decided  : ∀ pre c post, cs = pre ++ c :: post → ∀ l₁ w l₂, madeAt slug digest spoken pre c = l₁ ++ w :: l₂ →
    w.Reports → ∃ marks t mode, .save marks ∈ l₁ ∧ marks.cutoff = some (t, mode) ∧ w.Of slug spoken marks.window mode
  single   : ∀ pre c post, cs = pre ++ c :: post → ∀ l₁ n l₂, madeAt slug digest spoken pre c = l₁ ++ .notify n :: l₂ →
    ∀ n', .notify n' ∉ l₁ ++ l₂
  notified : ∀ pre c₁ mid c₂ post, cs = pre ++ c₁ :: (mid ++ c₂ :: post) →
    ∀ l₁ n₁ l₂, madeAt slug digest spoken pre c₁ = l₁ ++ .notify n₁ :: l₂ →
    ∀ n₂, .notify n₂ ∈ madeAt slug digest spoken (pre ++ c₁ :: mid) c₂ → n₂.window = n₁.window →
    l₂ = [] ∨ ∃ c ∈ mid, Disturbs n₁.window c
  kept     : ∀ pre mid post, cs = pre ++ (mid ++ post) → ∀ bounds mode,
    Decided (Run.run (step slug digest spoken) init pre) bounds mode → (∀ c ∈ mid, ¬ Disturbs bounds c) →
    (∀ window gates nowMs, span window = some bounds → bounds.2 ≤ nowMs →
      ((claimsStopped spoken (Run.run (step slug digest spoken) init (pre ++ mid)) window gates nowMs).isSome ↔
        mode = .enforce)) ∧
    ∀ c rest, post = c :: rest → ∀ w ∈ madeAt slug digest spoken (pre ++ mid) c, w.Reports → w.About bounds →
      w.Of slug spoken bounds mode

variable {slug digest spoken}

theorem made_decided {l₁ l₂ : List Write} (he : made slug digest spoken s c = l₁ ++ w :: l₂) (hw : w.Reports) :
    ∃ marks t mode, .save marks ∈ l₁ ∧ marks.cutoff = some (t, mode) ∧ w.Of slug spoken marks.window mode := by
  obtain ⟨bounds, marks, mode, front, hr, hm, hs⟩ := reported he hw
  obtain ⟨t, ht⟩ := hr.cutoff
  refine ⟨marks, t, mode, hm, ht, ?_⟩
  rw [hr.window]
  obtain ⟨_, rfl⟩ | ⟨_, rfl, _⟩ := hs
  case inl => exact ⟨rfl, _, _, rfl⟩
  case inr => exact ⟨_, _, _, rfl⟩

theorem made_single {l₁ l₂ : List Write} {n : Notice} (he : made slug digest spoken s c = l₁ ++ .notify n :: l₂)
    (n' : Notice) : .notify n' ∉ l₁ ++ l₂ := by
  obtain ⟨bounds, marks, mode, front, hr, -, hs⟩ := reported he trivial
  obtain ⟨_, hs⟩ | ⟨⟨sent, rfl, hn⟩, _, hl⟩ := hs
  case inl => cases hs
  case inr =>
    intro hm
    rw [List.mem_append, List.mem_append, List.mem_singleton] at hm
    rcases hm with (hm | hm) | hm
    · exact hr.quiet _ hm trivial
    · exact hn n' hm.symm
    · obtain rfl | rfl := hl
      case inl => cases hm
      case inr => cases List.mem_singleton.mp hm

-- A notice that is not the last write of its pass leaves the mark of the report.
theorem made_notified {l₁ l₂ : List Write} {n : Notice} (he : made slug digest spoken s c = l₁ ++ .notify n :: l₂) :
    l₂ = [] ∨ ∃ m, (step slug digest spoken s c).marks = some m ∧ m.window = n.window ∧ m.published.isSome := by
  obtain ⟨bounds, marks, mode, front, hr, -, hs⟩ := reported he trivial
  obtain ⟨_, hs⟩ | ⟨_, hn, hl⟩ := hs
  case inl => cases hs
  case inr =>
    cases hn
    refine hl.imp_right fun hl => ⟨{ marks with published := some c.pass.nowMs }, ?_, hr.window, rfl⟩
    rw [step, he, hl, List.foldl_append]
    rfl

-- A window whose report is marked gets no notice.
theorem not_notified {marks : Marks} {n : Notice} (hs : s.marks = some marks) (hp : marks.published.isSome)
    (hw : n.window = marks.window) : .notify n ∉ made slug digest spoken s c := by
  intro hm
  obtain ⟨l₁, l₂, he⟩ := List.append_of_mem hm
  obtain ⟨bounds, marks', mode, front, hr, -, hn⟩ := reported he trivial
  obtain ⟨_, hn⟩ | ⟨_, hn, _⟩ := hn
  case inl => cases hn
  case inr =>
    cases hn
    have hk : (marksOf s c.pass bounds).published.isSome := (marksOf_keeps hs hw.symm).published hp
    rw [hr.fresh] at hk
    cases hk

theorem claimsStopped_decided {window : Window} {gates : String → Option String} {nowMs : ℤ}
    (h : Decided s bounds mode) (hb : span window = some bounds) (hn : bounds.2 ≤ nowMs) :
    (claimsStopped spoken s window gates nowMs).isSome ↔ mode = .enforce := by
  obtain ⟨marks, t, hs, hw, hc⟩ := h
  have hf : s.marks.filter (·.window = bounds) = some marks := by simp [hs, hw]
  simp only [claimsStopped, hb, not_lt.mpr hn, if_false, hf, Option.bind_some, hc, Option.map_some, Option.getD_some]
  split <;> simp_all

-- A report of a window whose cutoff is recorded is of the mode recorded.
theorem made_of (h : Decided s bounds mode) (hm : w ∈ made slug digest spoken s c) (hw : w.Reports)
    (ha : w.About bounds) : w.Of slug spoken bounds mode := by
  obtain ⟨marks, t, hs, hb, hc⟩ := h
  obtain ⟨l₁, l₂, he⟩ := List.append_of_mem hm
  obtain ⟨marks', t', mode', hm', hc', ho⟩ := made_decided he hw
  have hv : marks'.window = bounds := by
    cases w with
    | notify n =>
      obtain ⟨_, _, _, rfl⟩ := ho
      exact ha
    | send m   =>
      have hr := ho.1.symm.trans ha
      simpa using hr
    | save     => exact hw.elim
    | log      => exact hw.elim
  obtain ⟨_, _, hk⟩ := save_writes (mem_made (by rw [he]; exact List.mem_append_left _ hm'))
  have hk' := hk.cutoff _ ((marksOf_keeps (p := c.pass) hs (hb.trans hv.symm)).cutoff _ hc)
  cases hc'.symm.trans hk'
  exact hv ▸ ho

theorem passes_end (cs : List Cut) : Ends slug digest spoken cs where
  once := apart_run.nodup
  decided _ _ _ _ _ _ _ he hw := made_decided he hw
  single _ _ _ _ _ _ _ he := made_single he
  notified pre c₁ mid c₂ post _ l₁ n₁ l₂ he n₂ hm hw := by
    refine (made_notified he).imp_right fun ⟨marks, hs, hb, hp⟩ => ?_
    by_contra hd
    have hd : ∀ c ∈ mid, ¬ Disturbs marks.window c := fun c hc h => hd ⟨c, hc, hb ▸ h⟩
    obtain ⟨m, hm', hk⟩ : ∃ m, (Run.run (step slug digest spoken) _ mid).marks = some m ∧ Keeps marks m := run_keeps hs hd
    rw [madeAt, ← List.singleton_append, ← List.append_assoc, Run.run_append, Run.run_concat] at hm
    exact not_notified hm' (hk.published hp) (hw.trans (hk.window.trans hb).symm) hm
  kept pre mid post _ bounds mode h hd := by
    obtain ⟨marks, t, hs, hb, hc⟩ := h
    obtain ⟨m, hm, hk⟩ : ∃ m, (Run.run (step slug digest spoken) _ mid).marks = some m ∧ Keeps marks m :=
      run_keeps hs (hb ▸ hd)
    rw [← Run.run_append] at hm
    have h : Decided (Run.run (step slug digest spoken) init (pre ++ mid)) bounds mode :=
      ⟨m, t, hm, hk.window.trans hb, hk.cutoff _ hc⟩
    exact ⟨fun _ _ _ => claimsStopped_decided h, fun _ _ _ _ hw hr ha => made_of h hw hr ha⟩

-- A pass over a window from the start of time on, of a swarm without tasks.
def bare (minutes : ℕ) (mode : String) (nowMs : ℤ) (world : String) (done : ℕ) : Cut where
  pass := ⟨⟨some 0, some minutes⟩, fun _ => some mode, nowMs, [], [], [], "master-watchdog", fun _ => world⟩
  done := done

-- A window that another one replaced and that was set back is decided and noticed again, and a recipient that moved to
-- another world hears again.
theorem passes_repeat :
    (∃ cs, Run.Along (step "sw" id toString) (fun s c => (writes "sw" id toString s c.pass).length ≤ c.done) init cs ∧
      ¬ ((Run.run (step "sw" id toString) init cs).notices.map (·.window)).Nodup) ∧
    (∃ pre mid, Decided (Run.run (step "sw" id toString) init pre) (0, 60000) .enforce ∧
      claimsStopped toString (Run.run (step "sw" id toString) init (pre ++ mid)) ⟨some 0, some 1⟩
        (fun _ => some "observe") 60001 = none) ∧
    ∃ cs, ¬ ((Run.run (step "sw" id toString) init cs).messages.map (·.ref)).Nodup := by
  refine ⟨⟨[bare 1 "off" 60000 "" 9, bare 2 "off" 60000 "" 9, bare 1 "off" 60001 "" 9], by decide, by decide⟩,
    ⟨[bare 1 "enforce" 60000 "" 9], [bare 2 "observe" 60000 "" 9], ?_, by decide⟩,
    [bare 1 "off" 60000 "" 3, bare 1 "off" 60001 "hive" 9], by decide⟩
  exact ⟨_, 60000, rfl, by decide, by decide⟩

end RunWindow
