import Agentihooks.Preempt.Asks

-- What the asks of a run of passes are bounded by.

namespace Preempt

variable {c : Call} {s : State} {full : Full} {task : Task}

theorem Below.trans {p q r : ℕ × ℕ} (h₁ : Below p q) (h₂ : Below q r) : Below p r := by
  unfold Below at *
  omega

theorem Below.irrefl {p : ℕ × ℕ} : ¬ Below p p := by
  unfold Below
  omega

theorem lowest_fold {holders : List Agent} {best : Option Agent} {a : Agent}
    (h : holders.foldl c.lowest best = some a) :
    (a ∈ holders ∨ best = some a) ∧ (∀ b, best = some b → ¬ Below (c.place a) (c.place b)) ∧
      ∀ b ∈ holders, ¬ Below (c.place a) (c.place b) := by
  induction holders generalizing best
  case nil => exact ⟨.inr h, fun b hb => by cases hb.symm.trans h; exact Below.irrefl, by simp⟩
  case cons first holders ih =>
    obtain ⟨hm, hb, hh⟩ := ih h
    have hf : ¬ Below (c.place a) (c.place first) := by
      cases hc : best with
      | none   => exact hb first (by simp [Call.lowest, hc])
      | some b =>
        by_cases hl : Below (c.place b) (c.place first)
        case pos => exact hb first (by simp [Call.lowest, hc, hl])
        case neg =>
          have ha := hb b (by simp [Call.lowest, hc, hl])
          unfold Below at *
          omega
    refine ⟨?_, fun b he => ?_, fun b hm => ?_⟩
    · cases hm with
      | inl hm => exact .inl (List.mem_cons_of_mem _ hm)
      | inr hm =>
        cases hc : best with
        | none   => exact .inl (by simp_all [Call.lowest])
        | some b =>
          by_cases hl : Below (c.place b) (c.place first)
          case pos => exact .inl (by simp_all [Call.lowest])
          case neg => exact .inr (by simp_all [Call.lowest])
    · subst he
      by_cases hl : Below (c.place b) (c.place first)
      case pos => exact fun h => hf (h.trans hl)
      case neg => exact hb b (by simp [Call.lowest, hl])
    · cases List.mem_cons.mp hm with
      | inl he => exact he ▸ hf
      | inr hm => exact hh b hm

theorem victim_spec {holders : List Agent} {a : Agent} (h : c.victim holders = some a) :
    (a ∈ holders ∧ ¬ c.preferred (c.rows a.task)) ∧
      ∀ b ∈ holders, ¬ c.preferred (c.rows b.task) → ¬ Below (c.place a) (c.place b) := by
  obtain ⟨hm, _, hb⟩ := lowest_fold h
  have hm : a ∈ holders.filter fun a => ¬ c.preferred (c.rows a.task) := hm.resolve_right (by simp)
  exact ⟨by simpa using hm, fun b hb' hp => hb b (List.mem_filter.mpr ⟨hb', by simpa using hp⟩)⟩

def Ask.entry (a : Ask) : String × String × ℕ :=
  (a.holder.name, a.waiting, a.atMs)

-- An ask that a pass may send while the given ones are remembered.
structure Due (c : Call) (s : State) (asked : List (String × String × ℕ)) (a : Ask) : Prop where
  lane   : ∃ full ∈ c.full, full.lane = a.lane ∧ a.holder ∈ full.holders ∧
    (∃ task ∈ full.ready, task.id = a.waiting ∧ c.preferred (some task)) ∧
    ∀ b ∈ full.holders, b.name ∉ asked.map Prod.fst → ¬ c.preferred (c.rows b.task) →
      ¬ Below (c.place a.holder) (c.place b)
  seen   : a.waiting ∈ s.waiting
  apart  : ¬ c.pending asked a.waiting
  lower  : ¬ c.preferred (c.rows a.holder.task)
  first  : a.holder.name ∉ asked.map Prod.fst
  time   : a.atMs = c.nowMs

-- A task that a pass finds waiting for a seat.
def Call.Waits (c : Call) (id : String) : Prop :=
  ∃ full ∈ c.full, ∃ task ∈ full.ready, task.id = id ∧ c.preferred (some task)

-- What holds while a pass goes on.
structure Passing (c : Call) (s : State) (pass : Pass) : Prop where
  waits : ∀ id ∈ pass.waiting, c.Waits id
  asked : pass.asked = kept c s ++ pass.asks.map Ask.entry
  due   : ∀ l₁ a l₂, pass.asks = l₁ ++ a :: l₂ → Due c s (kept c s ++ l₁.map Ask.entry) a

theorem Passing.turn {pass : Pass} (hf : full ∈ c.full) (ht : task ∈ full.ready) (hp : c.preferred (some task))
    (h : Passing c s pass) : Passing c s (turn c s full pass task) := by
  have hn : Passing c s { pass with waiting := pass.waiting ++ [task.id] } := by
    refine ⟨fun id hi => ?_, h.asked, h.due⟩
    cases List.mem_append.mp hi with
    | inl hi => exact h.waits id hi
    | inr hi => exact ⟨full, hf, task, ht, (List.mem_singleton.mp hi).symm, hp⟩
  unfold Preempt.turn
  split
  case isTrue => exact hn
  case isFalse hs =>
  split
  case isTrue => exact hn
  case isFalse =>
  split
  case h_1 => exact hn
  case h_2 a hv =>
  split
  case isTrue => exact hn
  case isFalse =>
    rw [not_or, not_not] at hs
    obtain ⟨⟨ha, hl⟩, hb⟩ := victim_spec hv
    rw [List.mem_filter, decide_eq_true_eq] at ha
    refine ⟨hn.waits, by simp [h.asked, Ask.entry], fun l₁ b l₂ he => ?_⟩
    obtain rfl | ⟨l₃, last, rfl⟩ := List.eq_nil_or_concat l₂
    case inl =>
      obtain ⟨rfl, hb'⟩ := List.append_inj' he rfl
      cases hb'
      rw [← h.asked]
      refine ⟨⟨full, hf, rfl, ha.1, ⟨task, ht, rfl, hp⟩, fun b hm hi => hb b ?_⟩, hs.1, by simpa using hs.2, hl, ha.2, rfl⟩
      exact List.mem_filter.mpr ⟨hm, by simpa using hi⟩
    case inr =>
      have he : pass.asks ++ [⟨full.lane, a, task.id, c.nowMs⟩] = (l₁ ++ b :: l₃) ++ [last] := by simpa using he
      exact h.due l₁ b l₃ (List.append_inj' he rfl).1

theorem passing : Passing c s (pass c s) := by
  refine List.foldlRecOn c.full (lane c s) ⟨by simp, by simp, by simp⟩ fun pass hp full hf => ?_
  refine List.foldlRecOn _ (turn c s full) hp fun pass hp task ht => ?_
  obtain ⟨ht, hw⟩ := List.mem_filter.mp ht
  exact hp.turn hf ht hw

section Step

variable {a b : Ask} {id : String} {entry : String × String × ℕ}

theorem step_waiting (h : id ∈ (step s c).waiting) : c.Waits id :=
  passing.waits id h

theorem step_asked : (step s c).asked = kept c s ++ (asks s c).map Ask.entry :=
  passing.asked

theorem asks_due {l₁ l₂ : List Ask} (h : asks s c = l₁ ++ a :: l₂) : Due c s (kept c s ++ l₁.map Ask.entry) a :=
  passing.due l₁ a l₂ h

-- In one pass no two asks are of the same kind, where an ask is not due after one of its kind.
theorem pairwise_of_due {R : Ask → Ask → Prop}
    (h : ∀ l₁ a l₂, asks s c = l₁ ++ a :: l₂ → ∀ b ∈ l₁, R b a) : (asks s c).Pairwise R := by
  suffices hs : ∀ l₂ l₁, asks s c = l₁ ++ l₂ → (∀ b ∈ l₁, ∀ a ∈ l₂, R b a) ∧ l₂.Pairwise R from
    (hs (asks s c) [] rfl).2
  intro l₂
  induction l₂ with
  | nil => exact fun _ _ => ⟨by simp, .nil⟩
  | cons a l₂ ih =>
    intro l₁ he
    obtain ⟨hr, hp⟩ := ih (l₁ ++ [a]) (by simpa using he)
    refine ⟨fun b hb a' ha' => ?_, .cons (hr a (by simp)) hp⟩
    cases List.mem_cons.mp ha' with
    | inl ha' => exact ha' ▸ h l₁ a l₂ he b hb
    | inr ha' => exact hr b (List.mem_append_left _ hb) a' ha'

theorem asks_names : ((asks s c).map (·.holder.name)).Nodup := by
  rw [List.Nodup, List.pairwise_map]
  refine pairwise_of_due fun l₁ a l₂ he b hb hn => (asks_due he).first ?_
  rw [← hn, List.map_append]
  exact List.mem_append_right _ (List.mem_map_of_mem (List.mem_map_of_mem hb))

theorem asks_time (h : a ∈ asks s c) : a.atMs = c.nowMs := by
  obtain ⟨l₁, l₂, he⟩ := List.append_of_mem h
  exact (asks_due he).time

theorem asks_waiting : ((asks s c).map (·.waiting)).Nodup := by
  rw [List.Nodup, List.pairwise_map]
  refine pairwise_of_due fun l₁ a l₂ he b hb hw => (asks_due he).apart ?_
  have ht : b.atMs = c.nowMs := asks_time (by rw [he]; exact List.mem_append_left _ hb)
  refine List.any_eq_true.mpr ⟨b.entry, List.mem_append_right _ (List.mem_map_of_mem hb), ?_⟩
  simp [Ask.entry, hw, ht, answerMs]

end Step

-- The asks that the pass after the given ones sends.
def sent (pre : List Call) (c : Call) : List Ask :=
  asks (Run.run step init pre) c

-- A name holds a seat for a task.
def Call.Holds (c : Call) (name task : String) : Prop :=
  ∃ a ∈ c.agents, c.holds a ∧ a.name = name ∧ a.task = task

-- A name was asked by one of the passes.
def Asked (pre : List Call) (name : String) : Prop :=
  ∃ first c rest, pre = first ++ c :: rest ∧ ∃ a ∈ sent first c, a.holder.name = name

variable {calls pre mid post : List Call} {a b : Ask}

theorem asked_of_entry {entry : String × String × ℕ} (h : entry ∈ (Run.run step init pre).asked) :
    Asked pre entry.1 := by
  induction pre using List.reverseRecOn
  case nil => cases h
  case append_singleton pre c ih =>
    rw [Run.run_concat, step_asked] at h
    cases List.mem_append.mp h with
    | inl h =>
      obtain ⟨first, c', rest, he, ha⟩ := ih (List.mem_filter.mp h).1
      exact ⟨first, c', rest ++ [c], by simp [he], ha⟩
    | inr h =>
      obtain ⟨a, ha, rfl⟩ := List.mem_map.mp h
      exact ⟨pre, c, [], rfl, a, ha, rfl⟩

theorem waits_of_waiting {id : String} (h : id ∈ (Run.run step init pre).waiting) :
    ∃ first last, pre = first ++ [last] ∧ last.Waits id := by
  obtain rfl | ⟨first, last, rfl⟩ := List.eq_nil_or_concat' pre
  case inl => cases h
  case inr =>
    rw [Run.run_concat] at h
    exact ⟨first, last, rfl, step_waiting h⟩

-- Every claimable task has an id, and at every pass whoever was asked before and kept the task since is in a
-- lane whose every seat is busy.
structure Steady (calls : List Call) : Prop where
  named : ∀ c ∈ calls, ∀ lane, ∀ task ∈ c.ready lane, task.id ≠ ""
  full  : ∀ pre c₁ mid c₂ post, calls = pre ++ c₁ :: (mid ++ c₂ :: post) → ∀ a ∈ sent pre c₁,
    (∀ c ∈ mid ++ [c₂], c.Holds a.holder.name a.holder.task) → a.holder.name ∈ c₂.holding

-- An ask is remembered for as long as the one asked keeps the task.
theorem Steady.remembered (h : Steady calls) (he : calls = pre ++ c :: (mid ++ post)) (ha : a ∈ sent pre c)
    (hh : ∀ c ∈ mid, c.Holds a.holder.name a.holder.task) :
    a.entry ∈ (Run.run step init (pre ++ c :: mid)).asked := by
  induction mid using List.reverseRecOn generalizing post
  case nil =>
    rw [Run.run_concat, step_asked]
    exact List.mem_append_right _ (List.mem_map_of_mem ha)
  case append_singleton mid c' ih =>
    have he' : calls = pre ++ c :: (mid ++ (c' :: post)) := by simpa using he
    have hi := ih he' fun c hc => hh c (List.mem_append_left _ hc)
    rw [← List.cons_append, ← List.append_assoc, Run.run_concat, step_asked]
    refine List.mem_append_left _ (List.mem_filter.mpr ⟨hi, ?_⟩)
    exact decide_eq_true (h.full pre c mid c' post (by simpa using he) a ha hh)

-- The same at the start of the pass that finds it still kept.
theorem Steady.kept (h : Steady calls) {c' : Call} (he : calls = pre ++ c :: (mid ++ c' :: post)) (ha : a ∈ sent pre c)
    (hh : ∀ c ∈ mid ++ [c'], c.Holds a.holder.name a.holder.task) :
    a.entry ∈ Preempt.kept c' (Run.run step init (pre ++ c :: mid)) := by
  have hm := h.remembered he ha fun c hc => hh c (List.mem_append_left _ hc)
  refine List.mem_filter.mpr ⟨hm, ?_⟩
  exact decide_eq_true (h.full pre c mid c' post he a ha hh)

-- What a run of passes keeps to with its asks.
structure Bounded (calls : List Call) : Prop where
  waited : ∀ pre c post, calls = pre ++ c :: post → ∀ a ∈ sent pre c,
    (∃ full ∈ c.full, full.lane = a.lane ∧
      ∃ task ∈ full.ready, task.id = a.waiting ∧ (task.rank = some "urgent" ∨ c.focused task)) ∧
    ∃ first last, pre = first ++ [last] ∧ last.Waits a.waiting
  lowest : ∀ pre c post, calls = pre ++ c :: post → ∀ l₁ a l₂, sent pre c = l₁ ++ a :: l₂ →
    (a.holder ∈ c.agents ∧ c.holds a.holder ∧ a.holder.lane = a.lane) ∧
    (∃ row, c.rows a.holder.task = some row ∧ row.rank ≠ some "urgent" ∧ ¬ c.focused row) ∧
    ∀ b ∈ c.agents, c.holds b → b.lane = a.lane → ¬ c.preferred (c.rows b.task) → ¬ Asked pre b.name →
      (∀ a' ∈ l₁, a'.holder.name ≠ b.name) → ¬ Below (c.place a.holder) (c.place b)
  once   : ∀ pre c₁ mid c₂ post, calls = pre ++ c₁ :: (mid ++ c₂ :: post) → ∀ a ∈ sent pre c₁,
    (∀ c ∈ mid ++ [c₂], c.Holds a.holder.name a.holder.task) →
    ∀ b ∈ sent (pre ++ c₁ :: mid) c₂, b.holder.name ≠ a.holder.name
  each   : ∀ pre c post, calls = pre ++ c :: post →
    ((sent pre c).map (·.holder.name)).Nodup ∧ ((sent pre c).map (·.waiting)).Nodup
  apart  : ∀ pre c₁ mid c₂ post, calls = pre ++ c₁ :: (mid ++ c₂ :: post) → ∀ a ∈ sent pre c₁,
    (∀ c ∈ mid ++ [c₂], c.Holds a.holder.name a.holder.task) →
    ∀ b ∈ sent (pre ++ c₁ :: mid) c₂, b.waiting = a.waiting → c₁.nowMs + answerMs ≤ c₂.nowMs

theorem mem_full (h : full ∈ c.full) : full.ready = c.ready full.lane ∧
    full.holders = c.agents.filter fun a => a.lane = full.lane ∧ c.holds a := by
  obtain ⟨⟨lane, cap⟩, _, he⟩ := List.mem_filterMap.mp h
  simp only [Option.ite_none_right_eq_some] at he
  cases he.2
  exact ⟨rfl, rfl⟩

theorem not_preferred {id : String} (h : ¬ c.preferred (c.rows id)) :
    ∃ row, c.rows id = some row ∧ row.rank ≠ some "urgent" ∧ ¬ c.focused row := by
  unfold Call.preferred at h
  split at h
  case h_1 => simp at h
  case h_2 row hr =>
    simp only [Bool.decide_or, Bool.or_eq_true, decide_eq_true_eq, not_or] at h
    exact ⟨row, hr, h.2⟩

theorem preferred_named (hi : task.id ≠ "") (h : c.preferred (some task)) :
    task.rank = some "urgent" ∨ c.focused task := by
  simpa [Call.preferred, hi] using h

theorem sent_split (h : a ∈ sent pre c) : ∃ l₁ l₂, sent pre c = l₁ ++ a :: l₂ :=
  List.append_of_mem h

theorem steady_bounded (h : Steady calls) : Bounded calls where
  waited pre c post he a ha := by
    obtain ⟨l₁, l₂, hs⟩ := sent_split ha
    have hd := asks_due hs
    obtain ⟨full, hf, hl, _, ⟨task, ht, hi, hp⟩, _⟩ := hd.lane
    have hn : task.id ≠ "" := h.named c (by simp [he]) full.lane task ((mem_full hf).1 ▸ ht)
    exact ⟨⟨full, hf, hl, task, ht, hi, preferred_named hn hp⟩, waits_of_waiting hd.seen⟩
  lowest pre c post _ l₁ a l₂ hs := by
    have hd := asks_due hs
    obtain ⟨full, hf, hl, hm, _, hb⟩ := hd.lane
    have hh := (mem_full hf).2
    have hm : a.holder ∈ c.agents ∧ a.holder.lane = full.lane ∧ c.holds a.holder := by simpa [hh] using hm
    refine ⟨⟨hm.1, hm.2.2, hm.2.1.trans hl⟩, not_preferred hd.lower, fun b hb' hc hl' hp hn hl₁ => hb b ?_ ?_ hp⟩
    · rw [hh]
      exact List.mem_filter.mpr ⟨hb', by simp [hl', hl, hc]⟩
    · intro hi
      rw [List.map_append, List.mem_append] at hi
      cases hi with
      | inl hi =>
        obtain ⟨entry, hk, he⟩ := List.mem_map.mp hi
        exact hn (he ▸ asked_of_entry (List.mem_filter.mp hk).1)
      | inr hi =>
        obtain ⟨entry, hk, he⟩ := List.mem_map.mp hi
        obtain ⟨a', ha', rfl⟩ := List.mem_map.mp hk
        exact hl₁ a' ha' he
  once pre c₁ mid c₂ post he a ha hh b hb hn := by
    obtain ⟨l₁, l₂, hs⟩ := sent_split hb
    refine (asks_due hs).first ?_
    rw [hn, List.map_append]
    exact List.mem_append_left _ (List.mem_map_of_mem (h.kept he ha hh))
  each _ _ _ _ := ⟨asks_names, asks_waiting⟩
  apart pre c₁ mid c₂ post he a ha hh b hb hw := by
    obtain ⟨l₁, l₂, hs⟩ := sent_split hb
    by_contra hc
    refine (asks_due hs).apart (List.any_eq_true.mpr ⟨a.entry, List.mem_append_left _ (h.kept he ha hh), ?_⟩)
    have ht : a.atMs = c₁.nowMs := asks_time ha
    simp only [Ask.entry, hw, ht, Bool.decide_and, decide_true, Bool.true_and, decide_eq_true_eq]
    omega

-- A task of its id and rank with nothing else.
def plain (id : String) (rank : Option String) : Task where
  id := id
  state := none
  phase := none
  slice := none
  lane := none
  kind := none
  mergedInto := none
  outOfScope := false
  dependsOn := []
  parkedOn := []
  rank := rank
  profile := none
  followUp := false

-- One agent works on `t2` while the urgent `t3` is claimable, with so many seats in the lane.
def shared (cap nowMs : ℕ) : Call where
  rows id := if id = "t2" then some (plain "t2" none) else if id = "t3" then some (plain "t3" (some "urgent")) else none
  freezes := []
  graph := ∅
  caps := [("eng", cap)]
  agents := [⟨"e2", "t2", "eng", 0⟩]
  holds _ := true
  ready _ := [plain "t3" (some "urgent")]
  nowMs := nowMs
  refused _ := none
  probe _ _ := ""

theorem shared_named {cap nowMs : ℕ} (lane : String) (h : task ∈ (shared cap nowMs).ready lane) : task.id ≠ "" := by
  rw [List.mem_singleton.mp h]
  decide

theorem steady_bounded_full : Bounded [shared 1 0, shared 1 1, shared 1 2] := by
  have hc : ∀ c ∈ [shared 1 0, shared 1 1, shared 1 2], ∃ now, c = shared 1 now := by
    simp only [List.mem_cons, List.not_mem_nil, or_false]
    rintro c (rfl | rfl | rfl)
    · exact ⟨0, rfl⟩
    · exact ⟨1, rfl⟩
    · exact ⟨2, rfl⟩
  refine steady_bounded ⟨fun c hm lane task ht => ?_, fun pre c₁ mid c₂ post he a ha _ => ?_⟩
  · obtain ⟨now, rfl⟩ := hc c hm
    exact shared_named lane ht
  · obtain ⟨now₁, rfl⟩ := hc c₁ (by simp [he])
    obtain ⟨now₂, rfl⟩ := hc c₂ (by simp [he])
    obtain ⟨l₁, l₂, hs⟩ := sent_split ha
    obtain ⟨full, hf, -, hm, -⟩ := (asks_due hs).lane
    have hn : a.holder.name ∈ (shared 1 now₁).holding := List.mem_flatMap.mpr ⟨full, hf, List.mem_map_of_mem hm⟩
    exact hn

-- A second seat that comes and goes makes the pass forget whom it asked.
theorem asked_twice :
    ¬ ∀ calls, (∀ c ∈ calls, ∀ lane, ∀ task ∈ c.ready lane, task.id ≠ "") → Bounded calls := by
  intro h
  have hb := h [shared 1 0, shared 1 1, shared 2 2, shared 1 3, shared 1 4] (by
    simp only [List.mem_cons, List.not_mem_nil, or_false]
    rintro c (rfl | rfl | rfl | rfl | rfl) lane task ht <;> exact shared_named lane ht)
  have hh : ∀ c ∈ [shared 2 2, shared 1 3] ++ [shared 1 4], c.Holds "e2" "t2" := by
    simp only [List.cons_append, List.nil_append, List.mem_cons, List.not_mem_nil, or_false]
    rintro c (rfl | rfl | rfl) <;> exact ⟨⟨"e2", "t2", "eng", 0⟩, by simp [shared], rfl, rfl, rfl⟩
  exact hb.once [shared 1 0] (shared 1 1) [shared 2 2, shared 1 3] (shared 1 4) [] rfl
    ⟨"eng", ⟨"e2", "t2", "eng", 0⟩, "t3", 1⟩ (by decide) hh ⟨"eng", ⟨"e2", "t2", "eng", 0⟩, "t3", 4⟩ (by decide) rfl

end Preempt
