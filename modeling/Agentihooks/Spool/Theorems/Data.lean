import Mathlib.Algebra.Order.BigOperators.Group.Finset
import Agentihooks.Spool.System

namespace Spool

variable {batches batches' : Batches} {name name' : Name} {names : List Name} {entry : Entry} {file : File} {settled : ℕ}
variable {key : String} {ack : Ack} {lost : Bool}

@[simp]
theorem mem_pending : name ∈ pending batches settled ↔ name ∈ batches ∧ settled < name.sequence := by
  simp [pending, Finmap.mem_keys]

theorem Name.sequence_le (h : name ≤ name') : name.sequence ≤ name'.sequence := by
  have hlex : toLex (name.sequence, name.key) ≤ toLex (name'.sequence, name'.key) := h
  rw [Prod.Lex.toLex_le_toLex] at hlex
  obtain hlt | ⟨heq, -⟩ := hlex
  · exact hlt.le
  · exact heq.le

theorem sorted_pending : (pending batches settled).Pairwise fun a b => a.sequence ≤ b.sequence :=
  (Finset.pairwise_sort _ _).imp Name.sequence_le

theorem nodup_pending : (pending batches settled).Nodup :=
  Finset.sort_nodup _ _

section Reading

theorem read_eq_some : read batches name = some entry ↔
    (∃ file, batches.lookup name = some file ∧ file.body = some entry) ∧ entry.sequence = name.sequence := by
  simp [read, Option.filter_eq_some_iff, Option.bind_eq_some_iff]

theorem read_insert_of_ne (h : name' ≠ name) : read (batches.insert name file) name' = read batches name' := by
  rw [read, read, Finmap.lookup_insert_of_ne _ h]

theorem size_insert_of_ne (h : name' ≠ name) : size (batches.insert name file) name' = size batches name' := by
  rw [size, size, Finmap.lookup_insert_of_ne _ h]

theorem size_insert_self : size (batches.insert name file) name = file.size := by
  rw [size, Finmap.lookup_insert]
  rfl

theorem size_erase_of_ne (h : name' ≠ name) : size (batches.erase name) name' = size batches name' := by
  rw [size, size, Finmap.lookup_erase_ne h]

theorem read_erase (h : read (batches.erase name) name' = some entry) : read batches name' = some entry := by
  obtain ⟨⟨file, hl, hb⟩, hs⟩ := read_eq_some.mp h
  exact read_eq_some.mpr ⟨⟨file, (Finmap.lookup_erase_eq_some.mp hl).right, hb⟩, hs⟩

-- No entry is pending for a key.
theorem buffered_eq_none : buffered batches names key = none ↔ ∀ name ∈ names, name.key = key → read batches name = none := by
  simp [buffered, List.findSome?_eq_none_iff]

theorem buffered_eq_some (h : buffered batches names key = some entry) :
    ∃ name ∈ names, name.key = key ∧ read batches name = some entry := by
  obtain ⟨name, hm, hr⟩ := List.exists_of_findSome?_eq_some h
  obtain ⟨hn, hk⟩ := List.mem_filter.mp hm
  exact ⟨name, hn, by simpa using hk, hr⟩

end Reading

section Bytes

theorem bytes_pending : bytes batches (pending batches settled) =
    ∑ name ∈ batches.keys.filter fun name => settled < name.sequence, size batches name := by
  rw [bytes, ← List.sum_toFinset _ nodup_pending, pending, Finset.sort_toFinset]

end Bytes

section Latest

variable {α : Type} {n : ℕ} {items : List α} {item : α}

theorem latest_map {β : Type} {f : α → β} : (latest n items).map f = latest n (items.map f) := by
  simp [latest, List.map_drop]

-- The latest of what was kept together with new items are the latest of all.
theorem latest_append {more : List α} : latest n (latest n items ++ more) = latest n (items ++ more) := by
  have hsplit : items.take (items.length - n) ++ latest n items = items := List.take_append_drop _ _
  have hlength : (latest n items).length = items.length - (items.length - n) := List.length_drop
  have hdrop : (items.take (items.length - n)).drop ((items ++ more).length - n) = [] := by
    refine List.drop_eq_nil_of_le ?_
    simp only [List.length_take, List.length_append]
    omega
  have htaken : (items.take (items.length - n)).length = items.length - n := by
    rw [List.length_take]
    omega
  have hall : latest n (items ++ more) = (latest n items ++ more).drop ((items ++ more).length - n - (items.length - n)) := by
    conv_lhs => rw [latest]
    conv_lhs =>
      enter [2]
      rw [← hsplit, List.append_assoc]
    rw [List.drop_append, hdrop, htaken, List.nil_append]
  rw [hall, latest]
  congr 1
  simp only [List.length_append, hlength]
  omega

theorem latest_latest : latest n (latest n items) = latest n items := by
  have h : latest n (latest n items ++ []) = latest n (items ++ []) := latest_append
  simpa using h

end Latest

section Next

theorem le_foldl_max {numbers : List ℕ} {first : ℕ} : first ≤ numbers.foldl max first ∧
    ∀ n ∈ numbers, n ≤ numbers.foldl max first := by
  induction numbers generalizing first with
  | nil             => simp
  | cons n rest ih  =>
    have hfirst : max first n ≤ rest.foldl max (max first n) := ih.left
    refine ⟨(le_max_left _ _).trans hfirst, fun m hm => ?_⟩
    obtain rfl | hm := List.mem_cons.mp hm
    · exact (le_max_right _ _).trans hfirst
    · exact ih.right m hm

theorem lt_next (h : name ∈ names) : name.sequence < ack.next names :=
  Nat.lt_succ_of_le (le_foldl_max.right _ (List.mem_map_of_mem h))

theorem settled_lt_next : ack.settled < ack.next names :=
  Nat.lt_succ_of_le le_foldl_max.left

end Next

end Spool

namespace Spool

variable {config : Config} {s s' : State} {name : Name} {entry : Entry} {file : File} {ack : Ack} {lost : Bool}

namespace State

-- What the file of acknowledgements says.
def known (s : State) : Ack :=
  s.ack.getD .initial

def settled (s : State) : ℕ :=
  s.known.settled

def unsettled (s : State) : List Name :=
  pending s.batches s.settled

theorem mem_unsettled : name ∈ s.unsettled ↔ name ∈ s.batches ∧ s.settled < name.sequence :=
  mem_pending

end State

-- The name under which an entry is kept.
def Entry.path (config : Config) (entry : Entry) : Name :=
  ⟨entry.sequence, config.key entry.identity⟩

-- An entry is still there, or it was accepted or reported lost.
def Accounted (config : Config) (s : State) (entry : Entry) : Prop :=
  (s.settled < entry.sequence ∧ entry.path config ∈ s.batches) ∨
  (entry.sequence ≤ s.settled ∧ (entry ∈ s.accepted ∨ entry.sequence ∈ s.known.lost))

structure Data (config : Config) (s : State) : Prop where
  known     : s.ack = some s.known
  sorted    : s.appended.Pairwise fun a b => a.sequence < b.sequence
  named     : ∀ name ∈ s.batches, ∃ entry ∈ s.appended, entry.path config = name
  body      : ∀ name entry, read s.batches name = some entry → entry ∈ s.appended
  accounted : ∀ entry ∈ s.appended, Accounted config s entry
  tried     : ∀ u ∈ s.tried, u ∈ s.appended
  ordered   : s.tried.Pairwise fun a b => a.sequence ≤ b.sequence
  below     : ∀ u ∈ s.tried, ∀ entry ∈ s.appended, entry.sequence < u.sequence → entry.sequence ≤ s.settled
  accepted  : ∀ u ∈ s.accepted, u ∈ s.tried
  recent    : s.known.recent.map Prod.fst = latest recentIdentities s.acked
  bytes     : bytes s.batches s.unsettled ≤ config.maxBytes

theorem data_empty : Data config empty where
  known     := rfl
  sorted    := .nil
  named     := by simp [empty, Finmap.notMem_empty]
  body      := by simp [empty, read]
  accounted := by simp [empty]
  tried     := by simp [empty]
  ordered   := .nil
  below     := by simp [empty]
  accepted  := by simp [empty]
  recent    := rfl
  bytes     := by
    rw [State.unsettled, bytes_pending]
    change ∑ name ∈ (∅ : Batches).keys.filter _, _ ≤ _
    simp

-- Two entries of one sequence number are one.
theorem Data.eq_of_sequence (h : Data config s) {a b : Entry} (ha : a ∈ s.appended) (hb : b ∈ s.appended)
    (hs : a.sequence = b.sequence) : a = b := by
  have hnodup : (s.appended.map Entry.sequence).Nodup := List.pairwise_map.mpr (h.sorted.imp ne_of_lt)
  exact List.inj_on_of_nodup_map hnodup ha hb hs

-- Only the locks and the calls differ.
structure Alike (s s' : State) : Prop where
  batches  : s'.batches = s.batches
  ack      : s'.ack = s.ack
  appended : s'.appended = s.appended
  tried    : s'.tried = s.tried
  accepted : s'.accepted = s.accepted
  acked    : s'.acked = s.acked

theorem Data.alike (h : Data config s) (ha : Alike s s') : Data config s' := by
  have hknown : s'.known = s.known := by rw [State.known, State.known, ha.ack]
  have hsettled : s'.settled = s.settled := congrArg Ack.settled hknown
  have hunsettled : s'.unsettled = s.unsettled := by rw [State.unsettled, State.unsettled, ha.batches, hsettled]
  constructor
  case known     => rw [hknown, ha.ack]; exact h.known
  case sorted    => rw [ha.appended]; exact h.sorted
  case named     => rw [ha.appended, ha.batches]; exact h.named
  case body      => rw [ha.appended, ha.batches]; exact h.body
  case accounted =>
    intro entry hm
    rw [ha.appended] at hm
    have hacc := h.accounted entry hm
    rwa [Accounted, hsettled, hknown, ha.batches, ha.accepted]
  case tried     => rw [ha.appended, ha.tried]; exact h.tried
  case ordered   => rw [ha.tried]; exact h.ordered
  case below     => rw [ha.appended, ha.tried, hsettled]; exact h.below
  case accepted  => rw [ha.accepted, ha.tried]; exact h.accepted
  case recent    => rw [hknown, ha.acked]; exact h.recent
  case bytes     => rw [hunsettled, ha.batches]; exact h.bytes

section Append

-- What is so of a new batch when it is written.
structure Fresh (config : Config) (s : State) (entry : Entry) : Prop where
  above    : ∀ a ∈ s.appended, a.sequence < entry.sequence
  settled  : s.settled < entry.sequence
  recalls  : ¬ s.known.recalls (config.key entry.identity)
  buffered : buffered s.batches s.unsettled (config.key entry.identity) = none
  room     : bytes s.batches s.unsettled + config.length entry ≤ config.maxBytes

variable (hf : Fresh config s entry)

theorem Data.notMem_fresh (h : Data config s) (hf : Fresh config s entry) : entry.path config ∉ s.batches := by
  intro hm
  obtain ⟨a, ha, hname⟩ := h.named _ hm
  have hs : a.sequence = entry.sequence := congrArg Name.sequence hname
  exact absurd (hf.above a ha) (by omega)

theorem Data.append (h : Data config s) (hf : Fresh config s entry) :
    Data config (s.appended_ (entry.path config) entry (config.length entry)) where
  known     := h.known
  sorted    := by
    refine List.pairwise_append.mpr ⟨h.sorted, List.pairwise_singleton _ _, fun a ha b hb => ?_⟩
    cases List.mem_singleton.mp hb
    exact hf.above a ha
  named     := by
    intro name hm
    obtain rfl | hold := Finmap.mem_insert.mp hm
    · exact ⟨entry, List.mem_append_right _ List.mem_cons_self, rfl⟩
    · obtain ⟨a, ha, hname⟩ := h.named name hold
      exact ⟨a, List.mem_append_left _ ha, hname⟩
  body      := by
    intro name a hr
    by_cases hname : name = entry.path config
    case pos =>
      subst hname
      obtain ⟨⟨file, hl, hb⟩, -⟩ := read_eq_some.mp hr
      cases (Finmap.lookup_insert _).symm.trans hl
      cases hb
      exact List.mem_append_right _ List.mem_cons_self
    case neg => exact List.mem_append_left _ (h.body name a ((read_insert_of_ne hname).symm.trans hr))
  accounted := by
    intro a ha
    obtain ha | ha := List.mem_append.mp ha
    · obtain hthere | hdone := h.accounted a ha
      · exact .inl ⟨hthere.left, Finmap.mem_insert.mpr (.inr hthere.right)⟩
      · exact .inr hdone
    · cases List.mem_singleton.mp ha
      exact .inl ⟨hf.settled, Finmap.mem_insert.mpr (.inl rfl)⟩
  tried     := fun u hu => List.mem_append_left _ (h.tried u hu)
  ordered   := h.ordered
  below     := by
    intro u hu a ha hlt
    obtain ha | ha := List.mem_append.mp ha
    · exact h.below u hu a ha hlt
    · cases List.mem_singleton.mp ha
      exact absurd (hf.above u (h.tried u hu)) (by omega)
  accepted  := h.accepted
  recent    := h.recent
  bytes     := by
    have hnew := h.notMem_fresh hf
    have hroom := hf.room
    rw [State.unsettled, bytes_pending] at hroom ⊢
    have hset : ((s.batches.insert (entry.path config) ⟨some entry, config.length entry⟩).keys.filter
        fun name => s.settled < name.sequence) =
        insert (entry.path config) (s.batches.keys.filter fun name => s.settled < name.sequence) := by
      ext name
      simp only [Finset.mem_filter, Finmap.mem_keys, Finmap.mem_insert, Finset.mem_insert]
      constructor
      · rintro ⟨rfl | hm, hs⟩
        · exact .inl rfl
        · exact .inr ⟨hm, hs⟩
      · rintro (rfl | ⟨hm, hs⟩)
        · exact ⟨.inl rfl, hf.settled⟩
        · exact ⟨.inr hm, hs⟩
    have hnot : entry.path config ∉ s.batches.keys.filter fun name => s.settled < name.sequence := by
      simp [Finmap.mem_keys, hnew]
    have hold : ∑ name ∈ s.batches.keys.filter fun name => s.settled < name.sequence,
        size (s.batches.insert (entry.path config) ⟨some entry, config.length entry⟩) name =
        ∑ name ∈ s.batches.keys.filter fun name => s.settled < name.sequence, size s.batches name := by
      refine Finset.sum_congr rfl fun name hm => size_insert_of_ne ?_
      rintro rfl
      exact hnot hm
    change ∑ name ∈ (s.batches.insert (entry.path config) ⟨some entry, config.length entry⟩).keys.filter
      fun name => s.settled < name.sequence, size (s.batches.insert (entry.path config) ⟨some entry, config.length entry⟩) name ≤ _
    rw [hset, Finset.sum_insert hnot, hold, size_insert_self]
    dsimp only
    omega

end Append

section Upload

theorem Data.upload {accepted : Bool} (h : Data config s) (hm : entry ∈ s.appended) (hu : s.settled < entry.sequence)
    (hb : ∀ a ∈ s.appended, a.sequence < entry.sequence → a.sequence ≤ s.settled) :
    Data config (s.upload entry accepted) where
  known     := h.known
  sorted    := h.sorted
  named     := h.named
  body      := h.body
  accounted := by
    intro a ha
    obtain hthere | ⟨hs, hdone⟩ := h.accounted a ha
    · exact .inl hthere
    · refine .inr ⟨hs, hdone.imp_left fun hacc => ?_⟩
      simp only [State.upload]
      split
      case isTrue  => exact List.mem_append_left _ hacc
      case isFalse => exact hacc
  tried     := by
    intro u hmem
    obtain hold | hnew := List.mem_append.mp hmem
    · exact h.tried u hold
    · cases List.mem_singleton.mp hnew
      exact hm
  ordered   := by
    refine List.pairwise_append.mpr ⟨h.ordered, List.pairwise_singleton _ _, fun u hmem b hnew => ?_⟩
    cases List.mem_singleton.mp hnew
    by_contra hlt
    exact absurd (h.below u hmem entry hm (not_le.mp hlt)) (not_le.mpr hu)
  below     := by
    intro u hmem a ha hlt
    obtain hold | hnew := List.mem_append.mp hmem
    · exact h.below u hold a ha hlt
    · cases List.mem_singleton.mp hnew
      exact hb a ha hlt
  accepted  := by
    intro u hmem
    have hcases : u ∈ s.accepted ∨ u = entry := by
      simp only [State.upload] at hmem
      split at hmem
      case isTrue  => simpa using hmem
      case isFalse => exact .inl hmem
    obtain hold | rfl := hcases
    · exact List.mem_append_left _ (h.accepted u hold)
    · exact List.mem_append_right _ List.mem_cons_self
  recent    := h.recent
  bytes     := h.bytes

end Upload

section Settle

-- What is so of the batch that is settled: it is the first one, and it was accepted where it is not lost.
structure Settling (config : Config) (s : State) (name : Name) (lost : Bool) : Prop where
  mem      : name ∈ s.unsettled
  first    : ∀ other ∈ s.unsettled, other = name ∨ name.sequence < other.sequence
  accepted : lost = false → ∃ entry ∈ s.accepted, entry.sequence = name.sequence
  recalls  : lost = false → ¬ s.known.recalls name.key

theorem Data.settled_lt (h : Data config s) (hs : Settling config s name lost) : s.settled < name.sequence :=
  (State.mem_unsettled.mp hs.mem).right

theorem Data.acknowledge (h : Data config s) (hs : Settling config s name lost) :
    Data config (s.acknowledge name lost s.known) where
  known     := rfl
  sorted    := h.sorted
  named     := h.named
  body      := h.body
  accounted := by
    intro entry he
    have hlost : ∀ n ∈ s.known.lost, n ∈ (s.known.acknowledge name lost).lost := by
      intro n hn
      simp only [Ack.acknowledge]
      split
      case isTrue  => exact List.mem_append_left _ hn
      case isFalse => exact hn
    obtain ⟨hup, hmem⟩ | ⟨hle, hdone⟩ := h.accounted entry he
    · obtain heq | hlt := hs.first _ (State.mem_unsettled.mpr ⟨hmem, hup⟩)
      · have hseq : entry.sequence = name.sequence := congrArg Name.sequence heq
        refine .inr ⟨hseq.le, ?_⟩
        cases lost with
        | true  =>
          right
          change entry.sequence ∈ s.known.lost ++ [name.sequence]
          rw [hseq]
          exact List.mem_append_right _ List.mem_cons_self
        | false =>
          obtain ⟨a, ha, hsame⟩ := hs.accepted rfl
          have hmine : a = entry := h.eq_of_sequence (h.tried a (h.accepted a ha)) he (hsame.trans hseq.symm)
          exact .inl (hmine ▸ ha)
      · exact .inl ⟨hlt, hmem⟩
    · exact .inr ⟨hle.trans (h.settled_lt hs).le, hdone.imp_right (hlost _)⟩
  tried     := h.tried
  ordered   := h.ordered
  below     := fun u hu entry he hlt => (h.below u hu entry he hlt).trans (h.settled_lt hs).le
  accepted  := h.accepted
  recent    := by
    have hknown : (s.acknowledge name lost s.known).known = s.known.acknowledge name lost := rfl
    rw [hknown]
    cases lost with
    | true  =>
      simp only [Ack.acknowledge, State.acknowledge, if_true]
      rw [latest_map, h.recent, latest_latest]
    | false =>
      have hnew : name.key ∉ s.known.recent.map Prod.fst := hs.recalls rfl
      simp only [Ack.acknowledge, State.acknowledge, Bool.false_eq_true, if_false]
      rw [latest_map, remember, if_neg hnew, List.map_append, h.recent, List.map_singleton, latest_append]
  bytes     := by
    refine le_trans ?_ h.bytes
    have hsub : (s.batches.keys.filter fun n => name.sequence < n.sequence) ⊆
        s.batches.keys.filter fun n => s.settled < n.sequence :=
      Finset.monotone_filter_right _ fun n _ hn => (h.settled_lt hs).trans hn
    rw [State.unsettled, State.unsettled, bytes_pending, bytes_pending]
    exact Finset.sum_le_sum_of_subset hsub

theorem Data.remove (h : Data config s) (hle : name.sequence ≤ s.settled) : Data config (s.remove name) where
  known     := h.known
  sorted    := h.sorted
  named     := fun other hm => h.named other (Finmap.mem_erase.mp hm).right
  body      := fun other entry hr => h.body other entry (read_erase hr)
  accounted := by
    intro entry he
    obtain ⟨hup, hmem⟩ | hdone := h.accounted entry he
    · refine .inl ⟨hup, Finmap.mem_erase.mpr ⟨fun heq => ?_, hmem⟩⟩
      have hseq : entry.sequence = name.sequence := congrArg Name.sequence heq
      exact absurd hup (not_lt.mpr (hseq ▸ hle))
    · exact .inr hdone
  tried     := h.tried
  ordered   := h.ordered
  below     := h.below
  accepted  := h.accepted
  recent    := h.recent
  bytes     := by
    refine le_trans (le_of_eq ?_) h.bytes
    rw [State.unsettled, State.unsettled, bytes_pending, bytes_pending]
    have hset : ((s.batches.erase name).keys.filter fun n => s.settled < n.sequence) =
        s.batches.keys.filter fun n => s.settled < n.sequence := by
      rw [Finmap.keys_erase, Finset.filter_erase]
      exact Finset.erase_eq_of_notMem (by simp [not_lt.mpr hle])
    change ∑ n ∈ (s.batches.erase name).keys.filter fun n => s.settled < n.sequence, size (s.batches.erase name) n = _
    rw [hset]
    refine Finset.sum_congr rfl fun n hn => size_erase_of_ne ?_
    rintro rfl
    exact absurd (Finset.mem_filter.mp hn).right (not_lt.mpr hle)

end Settle

section Corrupt

-- A file is corrupted that does not read any more and has not grown.
def Spoils (s : State) (name : Name) (file : File) : Prop :=
  (∀ entry ∈ file.body, entry.sequence ≠ name.sequence) ∧ file.size ≤ size s.batches name

instance : Decidable (Spoils s name file) :=
  inferInstanceAs (Decidable (_ ∧ _))

variable (hs : Spoils s name file)

include hs

theorem read_spoiled {other : Name} (hr : read (s.batches.insert name file) other = some entry) :
    read s.batches other = some entry := by
  by_cases ho : other = name
  case pos =>
    subst ho
    obtain ⟨⟨found, hl, hb⟩, hseq⟩ := read_eq_some.mp hr
    cases (Finmap.lookup_insert _).symm.trans hl
    exact absurd hseq (hs.left entry hb)
  case neg => exact (read_insert_of_ne ho).symm.trans hr

theorem size_spoiled {other : Name} : size (s.batches.insert name file) other ≤ size s.batches other := by
  by_cases ho : other = name
  case pos =>
    subst ho
    rw [size_insert_self]
    exact hs.right
  case neg => rw [size_insert_of_ne ho]

omit hs in
theorem mem_spoiled {other : Name} (hm : name ∈ s.batches) : other ∈ s.batches.insert name file ↔ other ∈ s.batches := by
  rw [Finmap.mem_insert]
  constructor
  · rintro (rfl | h)
    · exact hm
    · exact h
  · exact .inr

omit hs in
theorem pending_spoiled {settled : ℕ} (hm : name ∈ s.batches) :
    pending (s.batches.insert name file) settled = pending s.batches settled := by
  rw [pending, pending]
  congr 1
  ext other
  simp [Finmap.mem_keys, mem_spoiled hm]

theorem bytes_spoiled {names : List Name} : bytes (s.batches.insert name file) names ≤ bytes s.batches names :=
  List.sum_le_sum fun _ _ => size_spoiled hs

theorem Data.corrupt (h : Data config s) (hm : name ∈ s.batches) :
    Data config { s with batches := s.batches.insert name file } where
  known     := h.known
  sorted    := h.sorted
  named     := fun other ho => h.named other ((mem_spoiled hm).mp ho)
  body      := fun other entry hr => h.body other entry (read_spoiled hs hr)
  accounted := by
    intro entry he
    obtain ⟨hup, hmem⟩ | hdone := h.accounted entry he
    · exact .inl ⟨hup, (mem_spoiled hm).mpr hmem⟩
    · exact .inr hdone
  tried     := h.tried
  ordered   := h.ordered
  below     := h.below
  accepted  := h.accepted
  recent    := h.recent
  bytes     := by
    change Spool.bytes (s.batches.insert name file) (pending (s.batches.insert name file) s.settled) ≤ _
    rw [pending_spoiled hm]
    exact (bytes_spoiled hs).trans h.bytes

end Corrupt

end Spool
