import Mathlib.Data.List.Nodup
import Agentihooks.Messages.Bus

-- The life of a message, read off what happened to it: it is delivered once for each attempt and then, if at all,
-- settled by its latest delivery or given up.

namespace Messages

variable {clock : Clock} {window : ℕ} {hash : String → String → String} {setup : Reader → Setup}

def deliveries (n : ℕ) : List Mark :=
  (List.range n).map fun k => .delivered (k + 1)

theorem deliveries_succ {n : ℕ} : deliveries (n + 1) = deliveries n ++ [.delivered (n + 1)] := by
  simp [deliveries, List.range_succ]

namespace Bus

variable {s : Bus} {r q : Reader} {i j : ℕ} {mark : Mark} {p : Pending} {m : Message}

def marks (s : Bus) (r : Reader) (i : ℕ) : List Mark :=
  s.history.filterMap fun h => if h.1 = r ∧ h.2.1 = i then some h.2.2 else none

-- What became of a message after its deliveries.
inductive Fate (hash : String → String → String) (setup : Reader → Setup) (s : Bus) (r : Reader) (i : ℕ) :
    List Mark → Prop
  | pending (unsettled : (s.message r i).settled = false) (listed : i ∈ (s.pending r).messages) : Fate hash setup s r i []
  | settled (settled : (s.message r i).settled = true) (delivered : 0 < (s.message r i).attempt) :
    Fate hash setup s r i [.settled (s.message r i).attempt]
  | lettered (settled : (s.message r i).settled = true)
    (last : (s.message r i).attempt = (setup r).policy.maxDeliver)
    (letters : r.letters = true)
    (written : ∃ e ∈ s.entries (.feed .dead), e.2.id = hash r.identity (s.message r i).event.id) :
    Fate hash setup s r i [.lettered]
  | dropped (settled : (s.message r i).settled = true)
    (last : (s.message r i).attempt = (setup r).policy.maxDeliver)
    (letters : r.letters = false) : Fate hash setup s r i [.dropped]

structure Life (hash : String → String → String) (setup : Reader → Setup) (s : Bus) (r : Reader) (i : ℕ) : Prop where
  bounded : (s.message r i).attempt ≤ (setup r).policy.maxDeliver
  marked  : ∃ ending, s.marks r i = deliveries (s.message r i).attempt ++ ending ∧ Fate hash setup s r i ending

structure Sound (hash : String → String → String) (setup : Reader → Setup) (s : Bus) : Prop where
  nodup  : ∀ r, (s.pending r).messages.Nodup
  listed : ∀ r, ∀ i ∈ (s.pending r).messages, i < (s.pending r).size
  fresh  : ∀ r i, (s.pending r).size ≤ i → s.marks r i = []
  lives  : ∀ r i, i < (s.pending r).size → Life hash setup s r i

@[simp]
theorem pending_leave : (s.leave r p).pending r = p :=
  Function.update_self ..

@[simp]
theorem pending_leave_other (h : q ≠ r) : (s.leave r p).pending q = s.pending q :=
  Function.update_of_ne h ..

@[simp]
theorem pending_note : (s.note r i mark).pending = s.pending :=
  rfl

@[simp]
theorem marks_leave : (s.leave r p).marks = s.marks :=
  rfl

theorem marks_note : (s.note r i mark).marks q j = s.marks q j ++ if q = r ∧ j = i then [mark] else [] := by
  simp only [marks, note, List.filterMap_append]
  by_cases h : q = r ∧ j = i
  case pos => simp [h]
  case neg =>
    have hn : ¬(r = q ∧ i = j) := fun hc => h ⟨hc.left.symm, hc.right.symm⟩
    simp [h, hn]

theorem delivered_iff {attempt : ℕ} : s.Delivered r i attempt ↔ .delivered attempt ∈ s.marks r i := by
  simp only [Delivered, marks, List.mem_filterMap]
  constructor
  case mp  => exact fun h => ⟨_, h, by simp⟩
  case mpr =>
    intro ⟨⟨q, j, mark⟩, h, he⟩
    split at he
    case isTrue hc =>
      cases he
      obtain ⟨rfl, rfl⟩ := hc
      exact h
    case isFalse => cases he

-- What a step that leaves a message and its marks alone may still change.
theorem Life.congr {t : Bus} (h : Life hash setup s r i) (hm : t.message r i = s.message r i)
    (hk : t.marks r i = s.marks r i) (hl : i ∈ (s.pending r).messages → (s.message r i).settled = false →
      i ∈ (t.pending r).messages) (he : s.entries (.feed .dead) ⊆ t.entries (.feed .dead)) :
    Life hash setup t r i := by
  obtain ⟨ending, hd, hf⟩ := h.marked
  refine ⟨hm ▸ h.bounded, ending, by rw [hk, hm, hd], ?_⟩
  cases hf
  case pending hs hi => exact .pending (by rw [hm, hs]) (hl hi hs)
  case settled hs ha =>
    rw [← hm] at hs ha ⊢
    exact .settled hs ha
  case lettered hs ha hr hw =>
    obtain ⟨e, hw, hi⟩ := hw
    rw [← hm] at hs ha hi
    exact .lettered hs ha hr ⟨e, he hw, hi⟩
  case dropped hs ha hr =>
    rw [← hm] at hs ha
    exact .dropped hs ha hr

-- A step that accepts an event touches no message.
structure Quiet (s t : Bus) : Prop where
  pending : t.pending = s.pending
  history : t.history = s.history
  entries : ∀ source, s.entries source ⊆ t.entries source

theorem Quiet.sound {t : Bus} (hq : Quiet s t) (h : Sound hash setup s) : Sound hash setup t := by
  have hk : t.marks = s.marks := by
    unfold marks
    rw [hq.history]
  constructor
  case nodup  => simpa only [hq.pending] using h.nodup
  case listed => simpa only [hq.pending] using h.listed
  case fresh  => simpa only [hq.pending, hk] using h.fresh
  case lives =>
    intro r i hi
    rw [hq.pending] at hi
    have hm : t.message r i = s.message r i := by rw [message, message, hq.pending]
    exact (h.lives r i hi).congr hm (by rw [hk]) (fun hl _ => hq.pending ▸ hl) (hq.entries _)

theorem quiet_reads {n : ℕ} : Quiet s { s with reads := n } :=
  ⟨rfl, rfl, fun _ => List.Subset.refl _⟩

theorem quiet_accept {source : Source} {subject : Subject} {event : Envelope} :
    Quiet s (s.accept clock window source subject event).1 := by
  simp only [accept]
  split
  case isTrue  => exact ⟨rfl, rfl, fun _ => List.Subset.refl _⟩
  case isFalse =>
    refine ⟨rfl, rfl, fun other => ?_⟩
    by_cases ho : other = source
    case pos => subst ho; simp
    case neg => simp [ho]

theorem sound_add {event : Envelope} (h : Sound hash setup s) :
    Sound hash setup (s.leave r ((s.pending r).add event)) := by
  have hn : (s.pending r).size ∉ (s.pending r).messages := fun hc => absurd (h.listed r _ hc) (lt_irrefl _)
  constructor
  case nodup =>
    intro q
    by_cases hq : q = r
    case neg => simpa [hq] using h.nodup q
    case pos =>
      subst hq
      have hd : ∀ a ∈ (s.pending q).messages, ¬a = (s.pending q).size := fun a ha hc => hn (hc ▸ ha)
      simpa [Pending.add, List.nodup_append, h.nodup q] using hd
  case listed =>
    intro q j hj
    by_cases hq : q = r
    case neg => simp only [pending_leave_other hq] at hj ⊢; exact h.listed q j hj
    case pos =>
      subst hq
      simp only [pending_leave, Pending.add, List.mem_append, List.mem_singleton] at hj ⊢
      cases hj
      case inl hj => exact Nat.lt_succ_of_lt (h.listed q j hj)
      case inr hj => exact hj ▸ Nat.lt_succ_self _
  case fresh =>
    intro q j hj
    by_cases hq : q = r
    case neg => simp only [pending_leave_other hq] at hj; exact h.fresh q j hj
    case pos =>
      subst hq
      simp only [pending_leave, Pending.add] at hj
      exact h.fresh q j (Nat.le_of_succ_le hj)
  case lives =>
    intro q j hj
    by_cases hq : q = r
    case neg =>
      simp only [pending_leave_other hq] at hj
      exact (h.lives q j hj).congr (by simp [message, hq]) rfl (fun hi _ => by simpa [hq] using hi)
        (List.Subset.refl _)
    case pos =>
      subst hq
      by_cases hs : j = (s.pending q).size
      case neg =>
        simp only [pending_leave, Pending.add] at hj
        have hlt : j < (s.pending q).size := by omega
        exact (h.lives q j hlt).congr (by simp [message, Pending.add, hs]) rfl
          (by simp +contextual [Pending.add]) (List.Subset.refl _)
      case pos =>
        subst hs
        refine ⟨by simp [message, Pending.add], [], ?_, .pending ?_ ?_⟩
        · simpa [message, Pending.add, deliveries] using h.fresh q _ le_rfl
        · simp [message, Pending.add]
        · simp [Pending.add]

-- A step that changes one message and records what it did to it.
structure Edits (r : Reader) (i : ℕ) (m : Message) (s t : Bus) : Prop where
  pending : t.pending = Function.update s.pending r ((s.pending r).set i m)
  marks   : ∀ q j, ¬(q = r ∧ j = i) → t.marks q j = s.marks q j
  entries : s.entries (.feed .dead) ⊆ t.entries (.feed .dead)

namespace Edits

variable {t : Bus}

theorem message (he : Edits r i m s t) : t.message r i = m := by
  simp [Bus.message, he.pending, Pending.set]

theorem message_other (he : Edits r i m s t) (h : ¬(q = r ∧ j = i)) : t.message q j = s.message q j := by
  by_cases hq : q = r
  case neg => simp [Bus.message, he.pending, hq]
  case pos =>
    subst hq
    have hj : j ≠ i := fun hj => h ⟨rfl, hj⟩
    simp [Bus.message, he.pending, Pending.set, hj]

theorem messages (he : Edits r i m s t) : (t.pending q).messages = (s.pending q).messages := by
  by_cases hq : q = r
  case neg => simp [he.pending, hq]
  case pos => subst hq; simp [he.pending, Pending.set]

theorem size (he : Edits r i m s t) : (t.pending q).size = (s.pending q).size := by
  by_cases hq : q = r
  case neg => simp [he.pending, hq]
  case pos => subst hq; simp [he.pending, Pending.set]

theorem sound (he : Edits r i m s t) (hi : i < (s.pending r).size) (h : Sound hash setup s)
    (hl : Life hash setup t r i) : Sound hash setup t := by
  constructor
  case nodup =>
    intro q
    rw [he.messages]
    exact h.nodup q
  case listed =>
    intro q j hj
    rw [he.messages] at hj
    rw [he.size]
    exact h.listed q j hj
  case fresh =>
    intro q j hj
    rw [he.size] at hj
    have hne : ¬(q = r ∧ j = i) := fun ⟨hq, hc⟩ => absurd hi (by subst hq hc; exact not_lt.mpr hj)
    rw [he.marks q j hne]
    exact h.fresh q j hj
  case lives =>
    intro q j hj
    by_cases hne : q = r ∧ j = i
    case pos =>
      obtain ⟨rfl, rfl⟩ := hne
      exact hl
    case neg =>
      rw [he.size] at hj
      exact (h.lives q j hj).congr (he.message_other hne) (he.marks q j hne) (fun hm _ => he.messages ▸ hm) he.entries

end Edits

-- What is settled has only its ending to show, and what is not has none.
theorem Life.unsettled (h : Life hash setup s r i) (hs : (s.message r i).settled = false) :
    s.marks r i = deliveries (s.message r i).attempt ∧ i ∈ (s.pending r).messages := by
  obtain ⟨ending, hd, hf⟩ := h.marked
  cases hf
  case pending hl => exact ⟨by simpa using hd, hl⟩
  all_goals simp_all

theorem sound_settle {attempt : ℕ} (h : Sound hash setup s) (hd : s.Delivered r i attempt) :
    Sound hash setup (s.settle r i attempt) := by
  have hi : i < (s.pending r).size := by
    by_contra hc
    rw [delivered_iff, h.fresh r i (not_lt.mp hc)] at hd
    exact List.not_mem_nil hd
  simp only [settle]
  split
  case isFalse => exact h
  case isTrue ha =>
    split
    case isTrue hs =>
      have hm : { s.message r i with settled := true } = s.message r i := by rw [← hs]
      have he : Edits r i (s.message r i) s (s.leave r ((s.pending r).set i (s.message r i))) :=
        ⟨rfl, fun _ _ _ => rfl, List.Subset.refl _⟩
      rw [hm]
      refine he.sound hi h ((h.lives r i hi).congr he.message rfl (fun hl _ => he.messages ▸ hl) he.entries)
    case isFalse hs =>
      have hs : (s.message r i).settled = false := by simpa using hs
      obtain ⟨hk, hl⟩ := (h.lives r i hi).unsettled hs
      generalize ht : (s.leave r ((s.pending r).set i { s.message r i with settled := true })).note r i
        (.settled attempt) = t
      have he : Edits r i { s.message r i with settled := true } s t := by
        subst ht
        exact ⟨rfl, fun q j hne => by simp [marks_note, hne], List.Subset.refl _⟩
      have hm : t.marks r i = s.marks r i ++ [.settled attempt] := by
        subst ht
        simp [marks_note]
      refine he.sound hi h ⟨?_, [.settled attempt], ?_, ?_⟩
      · rw [he.message]
        exact (h.lives r i hi).bounded
      · rw [hm, hk, he.message]
      · have hp : 0 < attempt := by
          rw [delivered_iff, hk] at hd
          obtain ⟨n, -, hn⟩ := List.mem_map.mp hd
          cases hn
          exact Nat.succ_pos n
        have ha' : (t.message r i).attempt = attempt := by rw [he.message]; exact ha
        have hf : Fate hash setup t r i [.settled (t.message r i).attempt] :=
          .settled (by rw [he.message]) (ha' ▸ hp)
        rwa [ha'] at hf

theorem sound_retry {attempt : ℕ} {delay : ℤ} (h : Sound hash setup s) (hd : s.Delivered r i attempt) :
    Sound hash setup (s.retry clock r i attempt delay) := by
  have hi : i < (s.pending r).size := by
    by_contra hc
    rw [delivered_iff, h.fresh r i (not_lt.mp hc)] at hd
    exact List.not_mem_nil hd
  simp only [retry]
  split
  case isFalse => exact h
  case isTrue ha =>
    obtain ⟨hk, hl⟩ := (h.lives r i hi).unsettled ha.right
    generalize hm : ({ s.message r i with readyAt := clock.reading s.reads + delay } : Message) = m
    have he : Edits r i m s ({ s with reads := s.reads + 1 }.leave r ((s.pending r).set i m)) :=
      ⟨rfl, fun _ _ _ => rfl, List.Subset.refl _⟩
    refine he.sound hi h ⟨?_, [], ?_, .pending ?_ ?_⟩
    · rw [he.message, ← hm]
      exact (h.lives r i hi).bounded
    · rw [he.message, ← hm, List.append_nil]
      exact hk
    · rw [he.message, ← hm]
      exact ha.right
    · rw [he.messages]
      exact hl

theorem sound_deliver (h : Sound hash setup s) (hi : i < (s.pending r).size)
    (hs : (s.message r i).settled = false) (ha : (s.message r i).attempt < (setup r).policy.maxDeliver) :
    Sound hash setup (s.deliver clock setup r i) := by
  obtain ⟨hk, hl⟩ := (h.lives r i hi).unsettled hs
  generalize hm : ({ s.message r i with
    attempt := (s.message r i).attempt + 1
    readyAt := clock.reading s.reads + (setup r).policy.waitMs ((s.message r i).attempt + 1) } : Message) = m
  have hmk q j : (s.deliver clock setup r i).marks q j =
      s.marks q j ++ if q = r ∧ j = i then [.delivered ((s.message r i).attempt + 1)] else [] :=
    marks_note
  have he : Edits r i m s (s.deliver clock setup r i) := by
    subst hm
    exact ⟨rfl, fun q j hne => by simp [hmk, hne], List.Subset.refl _⟩
  refine he.sound hi h ⟨?_, [], ?_, .pending ?_ ?_⟩
  · rw [he.message, ← hm]
    exact ha
  · rw [he.message, ← hm, deliveries_succ, ← hk, hmk]
    simp
  · rw [he.message, ← hm]
    exact hs
  · rw [he.messages]
    exact hl

-- The letter of a message that is given up is in the dead log afterwards: it is written unless one is there.
structure Logged (s : Bus) : Prop where
  seen : ∀ source id time, s.seen source id = some time → ∃ e ∈ s.entries source, e.2.id = id

theorem accept_logged {source : Source} {subject : Subject} {event : Envelope} (h : Logged s) :
    Logged (s.accept clock window source subject event).1 ∧
      ∃ e ∈ (s.accept clock window source subject event).1.entries source, e.2.id = event.id := by
  simp only [accept]
  split
  case isTrue hs =>
    obtain ⟨time, ht⟩ := Option.isSome_iff_exists.mp hs
    have hseen := (Option.filter_eq_some_iff.mp ht).left
    refine ⟨⟨fun other id time ho => ?_⟩, h.seen _ _ _ hseen⟩
    by_cases hc : other = source
    case neg => exact h.seen other id time (by simpa [hc] using ho)
    case pos =>
      subst hc
      simp only [Function.update_self] at ho
      exact h.seen _ _ _ (Option.filter_eq_some_iff.mp ho).left
  case isFalse =>
    refine ⟨⟨fun other id time ho => ?_⟩, (subject, event), by simp, rfl⟩
    by_cases hc : other = source
    case neg =>
      obtain ⟨e, he⟩ := h.seen other id time (by simpa [hc] using ho)
      exact ⟨e, by simpa [hc] using he⟩
    case pos =>
      subst hc
      by_cases hid : id = event.id
      case pos => exact ⟨(subject, event), by simp, hid.symm⟩
      case neg =>
        simp only [Function.update_self, Function.update_of_ne hid] at ho
        obtain ⟨e, he, hi⟩ := h.seen _ _ _ (Option.filter_eq_some_iff.mp ho).left
        exact ⟨e, by simp [he], hi⟩

-- One message given up.
theorem expire_edits : Edits r i { s.message r i with settled := true } s (s.expire clock window hash r i) := by
  have hq subject event : Quiet s (s.accept clock window (.feed .dead) subject event).1 := quiet_accept
  simp only [expire]
  split
  case isFalse => exact ⟨rfl, fun q j hne => by simp [marks_note, hne], List.Subset.refl _⟩
  case isTrue =>
    refine ⟨?_, fun q j hne => ?_, ?_⟩
    · simp only [leave, publish, pending_note, (hq _ _).pending]
    · simp only [marks_leave, publish, marks_note, hne, ↓reduceIte, List.append_nil]
      unfold marks
      rw [(hq _ _).history]
    · exact (hq _ _).entries _

theorem expire_marks : (s.expire clock window hash r i).marks r i =
    s.marks r i ++ [if r.letters then .lettered else .dropped] := by
  have hq subject event : Quiet s (s.accept clock window (.feed .dead) subject event).1 := quiet_accept
  simp only [expire]
  split
  case isFalse => simp [marks_note]
  case isTrue =>
    simp only [marks_leave, publish, marks_note, and_self, ↓reduceIte]
    unfold marks
    rw [(hq _ _).history]

theorem logged_expire (h : Logged s) : Logged (s.expire clock window hash r i) := by
  simp only [expire]
  split
  case isFalse => exact ⟨h.seen⟩
  case isTrue  => exact ⟨(accept_logged h).left.seen⟩

theorem sound_expire (h : Sound hash setup s) (hw : Logged s) (hi : i < (s.pending r).size)
    (hs : (s.message r i).settled = false) (ha : (setup r).policy.maxDeliver ≤ (s.message r i).attempt) :
    Sound hash setup (s.expire clock window hash r i) := by
  have he : Edits r i { s.message r i with settled := true } s (s.expire clock window hash r i) := expire_edits
  have hlast : (s.message r i).attempt = (setup r).policy.maxDeliver := le_antisymm (h.lives r i hi).bounded ha
  obtain ⟨hk, -⟩ := (h.lives r i hi).unsettled hs
  refine he.sound hi h ⟨?_, [if r.letters then .lettered else .dropped], ?_, ?_⟩
  · rw [he.message]
    exact (h.lives r i hi).bounded
  · rw [expire_marks, hk, he.message]
  · split
    case isFalse hr =>
      exact .dropped (by rw [he.message]) (by rw [he.message]; exact hlast) (by simpa using hr)
    case isTrue hr =>
      refine .lettered (by rw [he.message]) (by rw [he.message]; exact hlast) hr ?_
      rw [he.message]
      simp only [expire, hr, ↓reduceIte]
      exact (accept_logged hw).right

theorem sound_expireAll {l : List ℕ} (h : Sound hash setup s) (hw : Logged s) (hn : l.Nodup)
    (hl : ∀ i ∈ l, i < (s.pending r).size ∧ (s.message r i).settled = false ∧
      (setup r).policy.maxDeliver ≤ (s.message r i).attempt) :
    Sound hash setup (l.foldl (fun s i => s.expire clock window hash r i) s) ∧
      Logged (l.foldl (fun s i => s.expire clock window hash r i) s) := by
  induction l generalizing s
  case nil => exact ⟨h, hw⟩
  case cons i l ih =>
    have he : Edits r i { s.message r i with settled := true } s (s.expire clock window hash r i) := expire_edits
    obtain ⟨hi, hs, ha⟩ := hl i List.mem_cons_self
    refine ih (sound_expire h hw hi hs ha) (logged_expire hw) hn.of_cons fun j hj => ?_
    have hne : ¬(r = r ∧ j = i) := fun hc => (List.nodup_cons.mp hn).left (hc.right ▸ hj)
    rw [he.message_other hne, he.size]
    exact hl j (List.mem_cons_of_mem i hj)

-- The part of a reader's state that its messages live in.
theorem sound_leave {t : Bus} (h : Sound hash setup s) (hk : t.history = s.history) (he : t.entries = s.entries)
    (ho : ∀ q, q ≠ r → t.pending q = s.pending q) (hh : (t.pending r).heap = (s.pending r).heap)
    (hs : (t.pending r).size = (s.pending r).size) (hl : (t.pending r).messages.Sublist (s.pending r).messages)
    (hu : ∀ i ∈ (s.pending r).messages, (s.message r i).settled = false → i ∈ (t.pending r).messages) :
    Sound hash setup t := by
  have hm : t.marks = s.marks := by
    unfold marks
    rw [hk]
  constructor
  case nodup =>
    intro q
    by_cases hq : q = r
    case pos => subst hq; exact (h.nodup q).sublist hl
    case neg => rw [ho q hq]; exact h.nodup q
  case listed =>
    intro q j hj
    by_cases hq : q = r
    case pos => subst hq; rw [hs]; exact h.listed q j (hl.subset hj)
    case neg => rw [ho q hq] at hj ⊢; exact h.listed q j hj
  case fresh =>
    intro q j hj
    rw [hm]
    by_cases hq : q = r
    case pos => subst hq; exact h.fresh q j (hs ▸ hj)
    case neg => exact h.fresh q j (ho q hq ▸ hj)
  case lives =>
    intro q j hj
    by_cases hq : q = r
    case pos =>
      subst hq
      exact (h.lives q j (hs ▸ hj)).congr (by rw [message, message, hh]) (by rw [hm]) (fun hi hc => hu j hi hc)
        (by rw [he]; exact List.Subset.refl _)
    case neg =>
      have hp := ho q hq
      exact (h.lives q j (hp ▸ hj)).congr (by rw [message, message, hp]) (by rw [hm]) (fun hi _ => hp ▸ hi)
        (by rw [he]; exact List.Subset.refl _)

theorem leave_leave {p' : Pending} : (s.leave r p).leave r p' = s.leave r p' := by
  simp [leave]

theorem sound_adds {l : List Envelope} (h : Sound hash setup s) :
    Sound hash setup (s.leave r (l.foldl Pending.add (s.pending r))) := by
  induction l generalizing s
  case nil =>
    have hp : s.leave r (s.pending r) = s := by simp [leave]
    simpa [hp] using h
  case cons event l ih =>
    have hi := ih (s := s.leave r ((s.pending r).add event)) (sound_add h)
    simpa [leave_leave] using hi

theorem sound_pull (h : Sound hash setup s) : Sound hash setup (s.pull setup r) := by
  have ha := sound_adds (r := r) (l := s.unread setup r) h
  exact sound_leave (r := r) ha rfl rfl (fun q hq => by simp [pull, hq]) (by simp [pull]) (by simp [pull])
    (by simp [pull]) (fun i hi _ => by simpa [pull] using hi)

theorem expireAll_message {l : List ℕ} (hi : i ∉ l) :
    (l.foldl (fun s i => s.expire clock window hash r i) s).message r i = s.message r i := by
  induction l generalizing s
  case nil => rfl
  case cons j l ih =>
    have he : Edits r j { s.message r j with settled := true } s (s.expire clock window hash r j) := expire_edits
    rw [List.foldl_cons, ih (fun hl => hi (List.mem_cons_of_mem j hl))]
    exact he.message_other fun hc => hi (hc.right ▸ List.mem_cons_self)

theorem expireAll_settled {l : List ℕ} (hi : i ∈ l ∨ (s.message r i).settled = true) :
    ((l.foldl (fun s i => s.expire clock window hash r i) s).message r i).settled = true := by
  induction l generalizing s
  case nil => simpa using hi
  case cons j l ih =>
    have he : Edits r j { s.message r j with settled := true } s (s.expire clock window hash r j) := expire_edits
    apply ih
    by_cases hj : i = j
    case pos => subst hj; exact .inr (by rw [he.message])
    case neg =>
      rw [he.message_other fun hc => hj hc.right]
      exact hi.imp_left fun hm => (List.mem_cons.mp hm).resolve_left hj

theorem expireAll_messages {l : List ℕ} :
    ((l.foldl (fun s i => s.expire clock window hash r i) s).pending r).messages = (s.pending r).messages := by
  induction l generalizing s
  case nil => rfl
  case cons j l ih =>
    have he : Edits r j { s.message r j with settled := true } s (s.expire clock window hash r j) := expire_edits
    rw [List.foldl_cons, ih, he.messages]

-- What is ready has a delivery left.
structure Deliverable (setup : Reader → Setup) (s : Bus) (r : Reader) (i : ℕ) : Prop where
  listed    : i ∈ (s.pending r).messages
  unsettled : (s.message r i).settled = false
  left      : (s.message r i).attempt < (setup r).policy.maxDeliver

theorem ready_sound {taken : List ℕ} (h : Sound hash setup s) (hw : Logged s) :
    Sound hash setup (s.ready clock window hash setup r taken).1 ∧
      Logged (s.ready clock window hash setup r taken).1 ∧
      ∀ i, (s.ready clock window hash setup r taken).2 = some i →
        Deliverable setup (s.ready clock window hash setup r taken).1 r i := by
  generalize hp : { s.pull setup r with reads := (s.pull setup r).reads + 1 } = u
  have hu : Sound hash setup u := hp ▸ quiet_reads.sound (sound_pull h)
  have huw : Logged u := by
    subst hp
    exact ⟨hw.seen⟩
  generalize hnow : clock.reading (s.pull setup r).reads = now
  generalize hl : u.expired setup r now taken = l
  have hmem i : i ∈ l ↔ i ∈ (u.pending r).messages ∧ i ∉ taken ∧ (u.message r i).settled = false ∧
      (setup r).policy.maxDeliver ≤ (u.message r i).attempt ∧ (u.message r i).readyAt ≤ now := by
    rw [← hl]
    simp [expired, and_assoc]
  have hn : l.Nodup := hl ▸ (hu.nodup r).filter _
  have hx : Sound hash setup (l.foldl (fun s i => s.expire clock window hash r i) u) ∧
      Logged (l.foldl (fun s i => s.expire clock window hash r i) u) := by
    refine sound_expireAll hu huw hn fun i hi => ?_
    obtain ⟨hi, -, hs, ha, -⟩ := (hmem i).mp hi
    exact ⟨hu.listed r i hi, hs, ha⟩
  obtain ⟨hx, hxw⟩ := hx
  generalize hx' : l.foldl (fun s i => s.expire clock window hash r i) u = x at hx hxw
  have hready : s.ready clock window hash setup r taken =
      (x.leave r { x.pending r with messages := (x.pending r).messages.filter fun i => !(x.message r i).settled },
        ((x.pending r).messages.filter fun i => !(x.message r i).settled).find?
          fun i => (x.message r i).readyAt ≤ now && i ∉ taken) := by
    subst hx' hl hnow hp
    simp only [ready, message, pending_leave]
    congr
  rw [hready]
  refine ⟨?_, ⟨hxw.seen⟩, fun i hi => ?_⟩
  · exact sound_leave (r := r) hx rfl rfl (fun q hq => by simp [hq]) (by simp) (by simp) (by simp)
      (fun i hi hs => by simp [hi, hs])
  · have hf := List.mem_of_find?_eq_some hi
    have hr := List.find?_some hi
    simp only [List.mem_filter, Bool.not_eq_true', Bool.and_eq_true, decide_eq_true_eq] at hf hr
    have hil : i ∉ l := by
      intro hc
      have hs : ((l.foldl (fun s i => s.expire clock window hash r i) u).message r i).settled = true :=
        expireAll_settled (.inl hc)
      rw [hx', hf.right] at hs
      cases hs
    have hm : x.message r i = u.message r i := hx' ▸ expireAll_message hil
    have hlm : i ∈ (u.pending r).messages := by
      have := hf.left
      rwa [← hx', expireAll_messages] at this
    refine ⟨by simpa using hf, by simpa [message] using hf.right, ?_⟩
    by_contra hc
    rw [hm] at hf hr
    have hc : (setup r).policy.maxDeliver ≤ (u.message r i).attempt := by
      rw [← hm]
      simpa [message] using hc
    exact hil ((hmem i).mpr ⟨hlm, hr.right, hf.right, hc, hr.left⟩)

theorem sound_take {batch : ℕ} {taken : List ℕ} (h : Sound hash setup s) (hw : Logged s) :
    Sound hash setup (take clock window hash setup r batch taken s) ∧
      Logged (take clock window hash setup r batch taken s) := by
  induction batch generalizing s taken
  case zero => exact ⟨h, hw⟩
  case succ batch ih =>
    have hs : Sound hash setup (s.ready clock window hash setup r taken).1 ∧
        Logged (s.ready clock window hash setup r taken).1 ∧
        ∀ i, (s.ready clock window hash setup r taken).2 = some i →
          Deliverable setup (s.ready clock window hash setup r taken).1 r i := ready_sound h hw
    obtain ⟨hr, hrw, hd⟩ := hs
    simp only [take]
    split
    case h_1 t he => rw [he] at hr hrw; exact ⟨hr, hrw⟩
    case h_2 t i he =>
      rw [he] at hr hrw hd
      have hi := hd i rfl
      exact ih (sound_deliver hr (hr.listed r i hi.listed) hi.unsettled hi.left) ⟨hrw.seen⟩

theorem sound_offer {name : String} {event : Envelope} (h : Sound hash setup s) :
    Sound hash setup (s.offer clock window name event) := by
  have hq : Sound hash setup (s.accept clock window (.queue name) [] event).1 := quiet_accept.sound h
  simp only [offer]
  split
  case h_1 he => rw [he] at hq; exact hq
  case h_2 he => rw [he] at hq; exact sound_add hq

theorem logged_offer {name : String} {event : Envelope} (h : Logged s) :
    Logged (s.offer clock window name event) := by
  have ha : Logged (s.accept clock window (.queue name) [] event).1 := (accept_logged h).left
  simp only [offer]
  split
  case h_1 he => rw [he] at ha; exact ha
  case h_2 he => rw [he] at ha; exact ⟨ha.seen⟩

theorem logged_settle {attempt : ℕ} (h : Logged s) : Logged (s.settle r i attempt) := by
  simp only [settle]
  split
  case isFalse => exact h
  case isTrue => split <;> exact ⟨h.seen⟩

theorem logged_retry {attempt : ℕ} {delay : ℤ} (h : Logged s) : Logged (s.retry clock r i attempt delay) := by
  simp only [retry]
  split
  case isFalse => exact h
  case isTrue  => exact ⟨h.seen⟩

theorem sound_step {e : Event} (h : Sound hash setup s) (hw : Logged s) :
    Sound hash setup (s.step clock window hash setup e) ∧ Logged (s.step clock window hash setup e) := by
  cases e
  case offer => exact ⟨sound_offer h, logged_offer hw⟩
  case publish => exact ⟨quiet_accept.sound h, (accept_logged hw).left⟩
  case poll => exact ⟨(ready_sound h hw).left, (ready_sound h hw).right.left⟩
  case take => exact sound_take h hw
  all_goals
    simp only [step]
    split
    case isFalse => exact ⟨h, hw⟩
  case ack.isTrue hd => exact ⟨sound_settle h hd, logged_settle hw⟩
  case term.isTrue hd => exact ⟨sound_settle h hd, logged_settle hw⟩
  case nak.isTrue hd => exact ⟨sound_retry h hd, logged_retry hw⟩

end Bus
end Messages
