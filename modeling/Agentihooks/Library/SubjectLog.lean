import Mathlib.Data.List.Nodup
import Mathlib.Data.Nat.Init
import Mathlib.Order.Nat

-- A log whose messages have a subject each. A message is published under the condition that its subject's newest
-- message is the expected one, and a subject keeps a bounded number of its newest messages.

structure SubjectLog.Message (σ δ : Type) where
  seq     : ℕ
  subject : σ
  data    : δ
  time    : ℕ

structure SubjectLog (σ δ : Type) where
  last     : ℕ
  messages : List (SubjectLog.Message σ δ)
  sorted   : messages.Pairwise (·.seq < ·.seq)
  bounded  : ∀ m ∈ messages, 0 < m.seq ∧ m.seq ≤ last

namespace SubjectLog

variable {σ δ : Type} [DecidableEq σ]

def empty : SubjectLog σ δ :=
  ⟨0, [], .nil, by simp⟩

-- The newest message of a subject.
def get (s : SubjectLog σ δ) (x : σ) : Option (Message σ δ) :=
  (s.messages.filter fun m => m.subject = x).getLast?

def lastOf (s : SubjectLog σ δ) (x : σ) : ℕ :=
  ((s.get x).map Message.seq).getD 0

-- The first message of a subject from a sequence on.
def next (s : SubjectLog σ δ) (x : σ) (seq : ℕ) : Option (Message σ δ) :=
  s.messages.find? fun m => m.subject = x ∧ seq ≤ m.seq

-- The oldest message of the subject goes when there are more than `limit` of them.
def retain (limit : ℕ) (x : σ) (ms : List (Message σ δ)) : List (Message σ δ) :=
  if limit < (ms.filter fun m => m.subject = x).length then ms.eraseP fun m => m.subject = x else ms

theorem retain_sublist (limit : ℕ) (x : σ) (ms : List (Message σ δ)) : (retain limit x ms).Sublist ms := by
  unfold retain
  split_ifs
  · exact List.eraseP_sublist
  · exact .refl _

def append (limit : ℕ) (s : SubjectLog σ δ) (x : σ) (data : δ) (time : ℕ) : SubjectLog σ δ where
  last     := s.last + 1
  messages := retain limit x (s.messages ++ [⟨s.last + 1, x, data, time⟩])
  sorted   := by
    refine .sublist (retain_sublist ..) (List.pairwise_append.mpr ⟨s.sorted, List.pairwise_singleton .., ?_⟩)
    intro m hm n hn
    obtain rfl := List.mem_singleton.mp hn
    exact Nat.lt_succ_of_le (s.bounded m hm).right
  bounded  := by
    intro m hm
    cases List.mem_append.mp ((retain_sublist ..).subset hm)
    case inl hm =>
      have hb := s.bounded m hm
      exact ⟨hb.left, Nat.le_succ_of_le hb.right⟩
    case inr hm =>
      obtain rfl := List.mem_singleton.mp hm
      exact ⟨Nat.succ_pos _, le_rfl⟩

def publish (limit : ℕ) (s : SubjectLog σ δ) (x : σ) (expected : ℕ) (data : δ) (time : ℕ) :
    Option (SubjectLog σ δ) :=
  if s.lastOf x = expected then some (s.append limit x data time) else none

def purge (s : SubjectLog σ δ) (p : σ → Bool) : SubjectLog σ δ where
  last     := s.last
  messages := s.messages.filter fun m => !p m.subject
  sorted   := s.sorted.filter _
  bounded  := fun m hm => s.bounded m (List.mem_filter.mp hm).left

def Has (s : SubjectLog σ δ) (x : σ) : Prop :=
  ∃ m ∈ s.messages, m.subject = x

variable {s : SubjectLog σ δ} {x y : σ} {m : Message σ δ} {limit : ℕ}

omit [DecidableEq σ] in
theorem eq_of_seq {n : Message σ δ} (hm : m ∈ s.messages) (hn : n ∈ s.messages) (h : m.seq = n.seq) : m = n := by
  have hd : (s.messages.map Message.seq).Nodup := List.pairwise_map.mpr (s.sorted.imp Nat.ne_of_lt)
  exact List.inj_on_of_nodup_map hd hm hn h

theorem get_eq_some (h : s.get x = some m) :
    m ∈ s.messages ∧ m.subject = x ∧ ∀ n ∈ s.messages, n.subject = x → n.seq ≤ m.seq := by
  have ⟨ms, he⟩ := List.getLast?_eq_some_iff.mp h
  have hm : m ∈ s.messages.filter fun m => m.subject = x := he ▸ List.mem_append_right _ (List.mem_singleton_self m)
  have ⟨hs, hx⟩ := List.mem_filter.mp hm
  refine ⟨hs, of_decide_eq_true hx, fun n hn hnx => ?_⟩
  have hp : (ms ++ [m]).Pairwise (·.seq < ·.seq) := he ▸ s.sorted.filter _
  have hn : n ∈ ms ++ [m] := he ▸ List.mem_filter.mpr ⟨hn, decide_eq_true hnx⟩
  cases List.mem_append.mp hn
  case inl hn => exact le_of_lt ((List.pairwise_append.mp hp).right.right n hn m (List.mem_singleton_self m))
  case inr hn => exact le_of_eq (congrArg _ (List.mem_singleton.mp hn))

theorem get_eq_none : s.get x = none ↔ ¬ s.Has x := by
  simp [get, Has]

theorem lastOf_of_get (h : s.get x = some m) : s.lastOf x = m.seq := by
  simp [lastOf, h]

theorem seq_le_lastOf (hm : m ∈ s.messages) (hx : m.subject = x) : m.seq ≤ s.lastOf x := by
  cases h : s.get x
  case none   => exact absurd ⟨m, hm, hx⟩ (get_eq_none.mp h)
  case some n => exact lastOf_of_get h ▸ (get_eq_some h).right.right m hm hx

theorem lastOf_pos (h : 0 < s.lastOf x) : ∃ m ∈ s.messages, m.subject = x ∧ m.seq = s.lastOf x := by
  cases hg : s.get x
  case none   => simp [lastOf, hg] at h
  case some m =>
    have ⟨hm, hx, _⟩ := get_eq_some hg
    exact ⟨m, hm, hx, (lastOf_of_get hg).symm⟩

theorem lastOf_le_last : s.lastOf x ≤ s.last := by
  by_cases h : 0 < s.lastOf x
  case neg => omega
  case pos =>
    obtain ⟨m, hm, _, he⟩ := lastOf_pos h
    exact he ▸ (s.bounded m hm).right

theorem lastOf_eq_iff (hm : m ∈ s.messages) (hx : m.subject = x)
    (hn : ∀ n ∈ s.messages, n.subject = x → n.seq ≤ m.seq) : s.lastOf x = m.seq := by
  have hp : 0 < s.lastOf x := lt_of_lt_of_le (s.bounded m hm).left (seq_le_lastOf hm hx)
  obtain ⟨n, hn', hnx, he⟩ := lastOf_pos hp
  exact le_antisymm (he ▸ hn n hn' hnx) (seq_le_lastOf hm hx)

-- The subject's messages decide its newest sequence.
theorem lastOf_congr {t : SubjectLog σ δ} (h : ∀ m, m.subject = x → (m ∈ t.messages ↔ m ∈ s.messages)) :
    t.lastOf x = s.lastOf x := by
  have le {a b : SubjectLog σ δ} (h : ∀ m, m.subject = x → m ∈ a.messages → m ∈ b.messages) :
      a.lastOf x ≤ b.lastOf x := by
    by_cases hp : 0 < a.lastOf x
    case neg => omega
    case pos =>
      obtain ⟨m, hm, hx, he⟩ := lastOf_pos hp
      exact he ▸ seq_le_lastOf (h m hx hm) hx
  exact le_antisymm (le fun m hx => (h m hx).mp) (le fun m hx => (h m hx).mpr)

section Next

variable {seq : ℕ}

theorem next_eq_some (h : s.next x seq = some m) :
    m ∈ s.messages ∧ m.subject = x ∧ seq ≤ m.seq ∧
    ∀ n ∈ s.messages, n.subject = x → seq ≤ n.seq → m.seq ≤ n.seq := by
  have ⟨hp, as, bs, he, hf⟩ := List.find?_eq_some_iff_append.mp h
  have ⟨hx, hs⟩ := of_decide_eq_true hp
  have hsorted := he ▸ s.sorted
  refine ⟨he ▸ List.mem_append_right _ List.mem_cons_self, hx, hs, fun n hn hnx hns => ?_⟩
  rw [he] at hn
  cases List.mem_append.mp hn
  case inl hn =>
    simp only [Bool.not_eq_true', decide_eq_false_iff_not] at hf
    exact absurd ⟨hnx, hns⟩ (hf n hn)
  case inr hn =>
    cases List.mem_cons.mp hn
    case inl hn => exact le_of_eq (congrArg _ hn.symm)
    case inr hn =>
      have hc := (List.pairwise_append.mp hsorted).right.left
      exact le_of_lt ((List.pairwise_cons.mp hc).left n hn)

theorem next_eq_none (h : s.next x seq = none) : ∀ n ∈ s.messages, n.subject = x → n.seq < seq := by
  intro n hn hx
  have hf := List.find?_eq_none.mp h n hn
  simp only [hx, true_and, decide_eq_true_eq] at hf
  omega

end Next

section Append

variable {data : δ} {time : ℕ}

theorem mem_of_mem_append (h : m ∈ (s.append limit x data time).messages) :
    m ∈ s.messages ∨ m = ⟨s.last + 1, x, data, time⟩ := by
  have hm := List.mem_append.mp ((retain_sublist ..).subset h)
  exact hm.imp_right List.mem_singleton.mp

theorem mem_append_of_ne (hm : m ∈ s.messages) (hx : m.subject ≠ x) :
    m ∈ (s.append limit x data time).messages := by
  have hm' := List.mem_append_left [⟨s.last + 1, x, data, time⟩] hm
  simp only [append, retain]
  split_ifs
  · exact (List.mem_eraseP_of_neg (by simpa using hx)).mpr hm'
  · exact hm'

-- A subject that keeps one message at least keeps the new one.
theorem new_mem_append (hl : 0 < limit) :
    (⟨s.last + 1, x, data, time⟩ : Message σ δ) ∈ (s.append limit x data time).messages := by
  simp only [append, retain]
  split_ifs with h
  case neg => exact List.mem_append_right _ (List.mem_singleton_self _)
  case pos =>
    have hn : ∃ n ∈ s.messages, n.subject = x := by
      by_contra hn
      have hf : s.messages.filter (fun m => m.subject = x) = [] := by
        simpa [List.filter_eq_nil_iff] using hn
      simp [List.filter_append, hf] at h
      omega
    obtain ⟨n, hn, hx⟩ := hn
    have he := List.eraseP_append_left (p := fun m => decide (m.subject = x)) (decide_eq_true hx)
      [⟨s.last + 1, x, data, time⟩] hn
    rw [he]
    exact List.mem_append_right _ (List.mem_singleton_self _)

theorem lastOf_append_self (hl : 0 < limit) : (s.append limit x data time).lastOf x = s.last + 1 :=
  lastOf_eq_iff (new_mem_append hl) rfl fun n hn _ => ((s.append limit x data time).bounded n hn).right

theorem lastOf_append_of_ne (h : y ≠ x) : (s.append limit x data time).lastOf y = s.lastOf y := by
  refine lastOf_congr fun m hm => ⟨fun ha => ?_, fun hs => mem_append_of_ne hs (hm ▸ h)⟩
  exact (mem_of_mem_append ha).resolve_right fun he => h (hm ▸ congrArg Message.subject he)

theorem Has.append (hl : 0 < limit) (h : s.Has y) : (s.append limit x data time).Has y := by
  by_cases hy : y = x
  case pos => exact ⟨_, new_mem_append hl, hy.symm⟩
  case neg =>
    obtain ⟨m, hm, rfl⟩ := h
    exact ⟨m, mem_append_of_ne hm hy, rfl⟩

end Append

section Purge

variable {p : σ → Bool}

omit [DecidableEq σ] in
theorem mem_purge : m ∈ (s.purge p).messages ↔ m ∈ s.messages ∧ p m.subject = false := by
  simp [purge]

theorem lastOf_purge (h : p x = false) : (s.purge p).lastOf x = s.lastOf x :=
  lastOf_congr fun m hx => by simp [mem_purge, hx, h]

omit [DecidableEq σ] in
theorem has_purge : (s.purge p).Has x ↔ s.Has x ∧ p x = false := by
  constructor
  case mp =>
    intro ⟨m, hm, hx⟩
    have ⟨hm, hp⟩ := mem_purge.mp hm
    exact ⟨⟨m, hm, hx⟩, hx ▸ hp⟩
  case mpr =>
    intro ⟨⟨m, hm, hx⟩, hp⟩
    exact ⟨m, mem_purge.mpr ⟨hm, hx ▸ hp⟩, hx⟩

end Purge

end SubjectLog
