import Mathlib.Tactic.Common
import Agentihooks.Library.Lists
import Agentihooks.Relay.Outbox

-- What one write of a ledger inserts.

namespace Relay

variable {slug : String} {revision id drawn : ℕ} {entity : Entity} {key : String} {item : Option Item}
variable {before after : State} {rows : List Row} {r : Row}

theorem indexed_eq_none {items : List Item} (h : key ∉ keys items) : indexed items key = none := by
  have hf : (items.filter fun item => item.id = some key) = [] := by
    refine List.filter_eq_nil_iff.mpr fun item hm hc => h ?_
    exact List.mem_filterMap.mpr ⟨item, hm, by simpa using hc⟩
  simp [indexed, hf]

theorem mem_changed : (entity, key, item) ∈ changed before after ↔
    indexed (entity.collection before) key ≠ indexed (entity.collection after) key ∧
      item = indexed (entity.collection after) key := by
  have hk (h : indexed (entity.collection before) key ≠ indexed (entity.collection after) key) :
      key ∈ keys (entity.collection before) ++ keys (entity.collection after) := by
    by_contra hc
    simp only [List.mem_append, not_or] at hc
    exact h (by rw [indexed_eq_none hc.left, indexed_eq_none hc.right])
  have he : entity ∈ [Entity.task, Entity.phase] := by cases entity <;> simp
  constructor
  case mp =>
    intro h
    obtain ⟨other, -, h⟩ := List.mem_flatMap.mp h
    obtain ⟨key', hf, heq⟩ := List.mem_map.mp h
    obtain ⟨rfl, rfl, rfl⟩ := by simpa using heq
    exact ⟨by simpa using (List.mem_filter.mp hf).right, rfl⟩
  case mpr =>
    intro ⟨hne, hi⟩
    refine List.mem_flatMap.mpr ⟨entity, he, List.mem_map.mpr ⟨key, List.mem_filter.mpr ⟨?_, by simpa using hne⟩, ?_⟩⟩
    · rw [List.mem_insertionSort, List.mem_dedup]
      exact hk hne
    · rw [hi]

theorem nodup_changed : ((changed before after).map fun c => (c.1, c.2.1)).Nodup := by
  have h (entity : Entity) (l : List String) (f : String → Option Item) (hl : l.Nodup) :
      ((l.map fun key => (entity, key, f key)).map fun c => (c.1, c.2.1)).Nodup := by
    rw [List.map_map]
    exact hl.map fun a b hab => by simpa using hab
  have hs (l : List String) : (l.dedup.insertionSort (· ≤ ·)).Nodup :=
    (List.perm_insertionSort _ _).nodup_iff.mpr l.nodup_dedup
  simp only [changed, List.flatMap_cons, List.flatMap_nil, List.append_nil, List.map_append]
  refine List.Nodup.append (h _ _ _ ((hs _).filter _)) (h _ _ _ ((hs _).filter _)) ?_
  intro c hc hc'
  simp only [List.map_map, List.mem_map] at hc hc'
  obtain ⟨_, -, rfl⟩ := hc
  obtain ⟨_, -, heq⟩ := hc'
  simp at heq

-- What every row ever inserted is like.
structure Written (r : Row) : Prop where
  event : r.value.id = r.id
  slim  : Relay.slim r.value = some r.value

theorem filled_id {i j : Item} (h : filled entity i = some j) : j.id.isSome := by
  obtain ⟨id, -, hj⟩ := Option.map_eq_some_iff.mp h
  simp [← hj]

-- Cutting to the catalogued fields twice is cutting once.
theorem filled_filled {i j : Item} (h : filled entity i = some j) : filled entity j = some j := by
  obtain ⟨id, -, hj⟩ := Option.map_eq_some_iff.mp h
  subst hj
  simp only [filled, Option.map_some, Option.some.injEq, Item.mk.injEq, true_and]
  refine Finmap.ext_lookup fun field => ?_
  by_cases hf : field ∈ (entity.defaults.map Prod.fst).toFinset
  case neg => simp only [Finmap.lookup_build, hf, if_false]
  case pos =>
    simp only [Finmap.lookup_build, hf, if_true]
    cases i.fields.lookup field <;> cases entity.default? field <;> rfl

theorem row_eq (h : row slug revision id entity key item = some r) :
    r.id = id ∧ r.slug = slug ∧ r.revision = revision ∧ (r.value.entity, r.value.key) = (entity, key) ∧ Written r := by
  obtain ⟨data, hd, h⟩ := Option.bind_eq_some_iff.mp h
  dsimp only at h
  split at h
  case isTrue => cases h
  case isFalse =>
    obtain ⟨subject, -, h⟩ := Option.bind_eq_some_iff.mp h
    cases h
    refine ⟨rfl, rfl, rfl, rfl, rfl, ?_⟩
    cases item
    case none =>
      cases hd
      rfl
    case some item =>
      obtain ⟨j, hj, rfl⟩ := Option.map_eq_some_iff.mp hd
      simp [Relay.slim, filled_filled hj]

-- The row an outbox holds for each change, under the next id.
structure Wrote (slug : String) (revision drawn : ℕ) (before after : State) (rows : List Row) : Prop where
  ids     : rows.map Row.id = List.range' drawn rows.length
  of      : ∀ r ∈ rows, r.slug = slug ∧ r.revision = revision
  written : ∀ r ∈ rows, Written r
  changes : rows.map (fun r => (r.value.entity, r.value.key)) = (changed before after).map fun c => (c.1, c.2.1)

theorem wrote_of_forall₂ {l : List (Entity × String × Option Item)}
    (h : List.Forall₂ (fun c r => row slug revision c.2 c.1.1 c.1.2.1 c.1.2.2 = some r) (l.zipIdx drawn) rows) :
    rows.map Row.id = List.range' drawn rows.length ∧ (∀ r ∈ rows, r.slug = slug ∧ r.revision = revision) ∧
      (∀ r ∈ rows, Written r) ∧ rows.map (fun r => (r.value.entity, r.value.key)) = l.map fun c => (c.1, c.2.1) := by
  induction l generalizing drawn rows
  case nil =>
    cases h
    simp
  case cons c l ih =>
    rw [List.zipIdx_cons] at h
    cases h with
    | cons hr h =>
      obtain ⟨hi, ho, hw, hc⟩ := ih h
      obtain ⟨hid, hslug, hrev, hkey, hwr⟩ := row_eq hr
      refine ⟨?_, ?_, ?_, ?_⟩
      · simp [hid, hi, List.range'_succ]
      · exact List.forall_mem_cons.mpr ⟨⟨hslug, hrev⟩, ho⟩
      · exact List.forall_mem_cons.mpr ⟨hwr, hw⟩
      · simp [hc, hkey]

theorem write_wrote (h : write slug revision drawn before after = some rows) :
    Wrote slug revision drawn before after rows := by
  obtain ⟨hi, ho, hw, hc⟩ := wrote_of_forall₂ (List.forall₂_of_mapM h)
  exact ⟨hi, ho, hw, hc⟩

-- One row for each task and phase that a write changes, and no other.
theorem Wrote.one (h : Wrote slug revision drawn before after rows) :
    (rows.map fun r => (r.value.entity, r.value.key)).Nodup ∧
      ∀ entity key, (∃ r ∈ rows, r.value.entity = entity ∧ r.value.key = key) ↔
        indexed (entity.collection before) key ≠ indexed (entity.collection after) key := by
  refine ⟨h.changes ▸ nodup_changed, fun entity key => ?_⟩
  have hm : (∃ r ∈ rows, r.value.entity = entity ∧ r.value.key = key) ↔
      (entity, key) ∈ rows.map fun r => (r.value.entity, r.value.key) := by simp
  rw [hm, h.changes]
  constructor
  case mp =>
    intro hc
    obtain ⟨⟨e, k, item⟩, hx, heq⟩ := List.mem_map.mp hc
    simp only [Prod.mk.injEq] at heq
    obtain ⟨rfl, rfl⟩ := heq
    exact (mem_changed.mp hx).left
  case mpr => exact fun hne => List.mem_map.mpr ⟨(entity, key, _), mem_changed.mpr ⟨hne, rfl⟩, rfl⟩

end Relay

-- What holds of the rows in any run of writes, one relay and prunes.

namespace Relay

variable {fits : String → Event → Bool} {s t : Store} {rows rest : List Row} {r a b : Row} {id : ℕ}

namespace Store

def ids (s : Store) : List ℕ :=
  s.bus.map fun x => x.2.id

-- How often the relay tried a row: the bus took it or refused it.
def tries (s : Store) (id : ℕ) : ℕ :=
  s.ids.count id + s.refused.count id

-- The row that is published and has no mark yet.
def marking (s : Store) : Option Row :=
  if s.published then s.rows.head? else none

theorem mem_unsent : r ∈ s.unsent ↔ r ∈ s.outbox ∧ s.sent r.id = none := by
  simp [unsent]

-- A row that pruning keeps is one that is not marked, or marked so recently that its mark stays.
theorem kept_unmarked (old : ℤ → Bool) (mark : Option ℤ) :
    (decide ((if mark.any old then none else mark) = none) && !mark.any old)
      = decide (mark = none) := by
  cases mark
  case none => simp
  case some time => cases h : old time <;> simp [h]

theorem unsent_prune {now window : ℤ} : (s.prune now window).unsent = s.unsent := by
  simp only [unsent, prune, List.filter_filter]
  exact List.filter_congr fun r _ => kept_unmarked _ (s.sent r.id)

end Store

-- What became of a row the relay is done with.
def Settled (fits : String → Event → Bool) (s : Store) (r : Row) : Prop :=
  if fits r.subject r.value then (r.subject, r.value) ∈ s.bus else r.id ∈ s.refused

structure Sound (fits : String → Event → Bool) (s : Store) : Prop where
  ids      : s.inserted.map Row.id = List.range s.drawn
  written  : ∀ r ∈ s.inserted, Written r
  outbox   : s.outbox.Sublist s.inserted
  sent     : ∀ id, s.sent id ≠ none → id < s.drawn
  cut      : ∀ id ∈ s.cut, id < s.drawn
  bus      : ∀ x ∈ s.bus, ∃ r ∈ s.inserted, x = (r.subject, r.value) ∧ fits r.subject r.value = true
  refused  : ∀ id ∈ s.refused, ∃ r ∈ s.inserted, r.id = id ∧ fits r.subject r.value = false
  nodup    : s.rows.Nodup
  rows     : ∀ r ∈ s.rows, r ∈ s.unsent
  marking  : s.published = true → s.rows ≠ []
  tries    : ∀ r ∈ s.inserted, s.tries r.id =
    s.cut.count r.id + (if r ∈ s.unsent then 0 else 1) + (if s.marking = some r then 1 else 0)
  ahead    : ∀ before r after, s.rows = before ++ r :: after →
    ∀ a ∈ s.unsent, a.id < r.id → a.revision < r.revision → a ∈ before
  order    : ∀ before x after, s.bus = before ++ x :: after → ∀ b ∈ s.inserted, b.id = x.2.id →
    ∀ a ∈ s.inserted, a.id < b.id → a.revision < b.revision → fits a.subject a.value = true →
    a.id ∈ before.map fun y => y.2.id

namespace Sound

theorem start : Sound fits .start := by
  constructor <;> simp [Store.start, Store.unsent]

theorem id_lt (h : Sound fits s) (hr : r ∈ s.inserted) : r.id < s.drawn := by
  have hm : r.id ∈ s.inserted.map Row.id := List.mem_map_of_mem hr
  rw [h.ids] at hm
  exact List.mem_range.mp hm

theorem eq_of_id (h : Sound fits s) (ha : a ∈ s.inserted) (hb : b ∈ s.inserted) (he : a.id = b.id) : a = b :=
  List.inj_on_of_nodup_map (h.ids ▸ List.nodup_range) ha hb he

theorem inserted_of_unsent (h : Sound fits s) (hr : r ∈ s.unsent) : r ∈ s.inserted :=
  h.outbox.subset (Store.mem_unsent.mp hr).left

theorem id_lt_of_bus (h : Sound fits s) (hi : id ∈ s.ids) : id < s.drawn := by
  obtain ⟨x, hx, rfl⟩ := List.mem_map.mp hi
  obtain ⟨r, hr, rfl, -⟩ := h.bus x hx
  dsimp only
  rw [(h.written r hr).event]
  exact h.id_lt hr

theorem id_lt_of_refused (h : Sound fits s) (hi : id ∈ s.refused) : id < s.drawn := by
  obtain ⟨r, hr, rfl, -⟩ := h.refused id hi
  exact h.id_lt hr

theorem settled (h : Sound fits s) (hr : r ∈ s.inserted) (hp : 0 < s.tries r.id) : Settled fits s r := by
  have hm : r.id ∈ s.ids ∨ r.id ∈ s.refused := by
    by_contra hc
    simp only [not_or] at hc
    simp [Store.tries, List.count_eq_zero.mpr hc.left, List.count_eq_zero.mpr hc.right] at hp
  unfold Settled
  cases hm with
  | inl hm =>
    obtain ⟨x, hx, he⟩ := List.mem_map.mp hm
    obtain ⟨r', hr', rfl, hf⟩ := h.bus x hx
    obtain rfl := h.eq_of_id hr' hr ((h.written r' hr').event ▸ he)
    rw [if_pos hf]
    exact hx
  | inr hm =>
    obtain ⟨r', hr', he, hf⟩ := h.refused _ hm
    obtain rfl := h.eq_of_id hr' hr he
    simpa [hf] using hm

-- A row is pending in the outbox until the bus took it or refused it.
theorem unsent_or_settled (h : Sound fits s) (hr : r ∈ s.inserted) : r ∈ s.unsent ∨ Settled fits s r := by
  by_cases hu : r ∈ s.unsent
  case pos => exact .inl hu
  case neg =>
    refine .inr (h.settled hr ?_)
    have ht := h.tries r hr
    simp only [hu, if_false] at ht
    omega

theorem tried_of_not_unsent (h : Sound fits s) (hr : r ∈ s.inserted) (hu : r ∉ s.unsent)
    (hf : fits r.subject r.value = true) : r.id ∈ s.ids := by
  have hs := (h.unsent_or_settled hr).resolve_left hu
  rw [Settled, if_pos hf] at hs
  have hm := List.mem_map_of_mem (f := fun x => x.2.id) hs
  rwa [(h.written r hr).event] at hm

-- A new row has an id nothing has seen.
theorem tries_of_fresh (h : Sound fits s) (hi : s.drawn ≤ id) : s.tries id = 0 := by
  have hb : id ∉ s.ids := fun hc => absurd (h.id_lt_of_bus hc) (by omega)
  have hr : id ∉ s.refused := fun hc => absurd (h.id_lt_of_refused hc) (by omega)
  rw [Store.tries, List.count_eq_zero.mpr hb, List.count_eq_zero.mpr hr]

theorem insert (h : Sound fits s) (hi : rows.map Row.id = List.range' s.drawn rows.length)
    (hw : ∀ r ∈ rows, Written r) : Sound fits (s.insert rows) := by
  have hnew : ∀ r ∈ rows, s.drawn ≤ r.id ∧ r.id < s.drawn + rows.length := by
    intro r hr
    have hm : r.id ∈ rows.map Row.id := List.mem_map_of_mem hr
    rw [hi, List.mem_range'_1] at hm
    exact hm
  have hun : (s.insert rows).unsent = s.unsent ++ rows := by
    have hf : rows.filter (fun r => s.sent r.id = none) = rows := by
      refine List.filter_eq_self.mpr fun r hr => ?_
      by_contra hc
      have hlt := h.sent r.id (by simpa using hc)
      have hge := (hnew r hr).left
      omega
    rw [Store.unsent, Store.insert, List.filter_append, hf]
    rfl
  have hold : ∀ r ∈ s.inserted, r ∉ rows := by
    intro r hr hc
    have hlt := h.id_lt hr
    have hge := (hnew r hc).left
    omega
  constructor
  case ids =>
    have hr := List.range'_append_1 (s := 0) (m := s.drawn) (n := rows.length)
    rw [Nat.zero_add] at hr
    simp only [Store.insert, List.map_append, h.ids, hi, List.range_eq_range', hr]
  case written => exact fun r hr => (List.mem_append.mp hr).elim (h.written r) (hw r)
  case outbox  => exact h.outbox.append (List.Sublist.refl _)
  case sent    => exact fun id hs => Nat.lt_add_right _ (h.sent id hs)
  case cut     => exact fun id hs => Nat.lt_add_right _ (h.cut id hs)
  case bus =>
    intro x hx
    obtain ⟨r, hr, hx⟩ := h.bus x hx
    exact ⟨r, List.mem_append_left _ hr, hx⟩
  case refused =>
    intro id hid
    obtain ⟨r, hr, hx⟩ := h.refused id hid
    exact ⟨r, List.mem_append_left _ hr, hx⟩
  case nodup   => exact h.nodup
  case rows    => exact fun r hr => hun ▸ List.mem_append_left _ (h.rows r hr)
  case marking => exact h.marking
  case tries =>
    intro r hr
    rw [hun]
    cases List.mem_append.mp hr with
    | inl hr =>
      have hm : r ∈ s.unsent ++ rows ↔ r ∈ s.unsent := by simp [hold r hr]
      simp only [hm]
      exact h.tries r hr
    | inr hr =>
      have hge := (hnew r hr).left
      have hc : r.id ∉ s.cut := fun hc => absurd (h.cut r.id hc) (by omega)
      have hm : s.marking ≠ some r := by
        intro hm
        simp only [Store.marking] at hm
        split at hm
        case isFalse => cases hm
        case isTrue  =>
          have hrow := h.inserted_of_unsent (h.rows r (List.mem_of_head? hm))
          exact hold r hrow hr
      calc
        s.tries r.id = 0 := h.tries_of_fresh hge
        _ = s.cut.count r.id + 0 + 0 := by rw [List.count_eq_zero.mpr hc]
        _ = s.cut.count r.id + (if r ∈ s.unsent ++ rows then 0 else 1) + (if s.marking = some r then 1 else 0) := by
          rw [if_pos (List.mem_append_right _ hr), if_neg hm]
  case ahead =>
    intro before r after he a ha hlt hrev
    rw [hun] at ha
    cases List.mem_append.mp ha with
    | inl ha => exact h.ahead before r after he a ha hlt hrev
    | inr ha =>
      have hr : r ∈ s.rows := by
        have he : s.rows = before ++ r :: after := he
        simp [he]
      have hid := h.id_lt (h.inserted_of_unsent (h.rows r hr))
      have hge := (hnew a ha).left
      omega
  case order =>
    intro before x after he b hb hid a ha hlt hrev hf
    have hx : x.2.id < s.drawn := by
      have he : s.bus = before ++ x :: after := he
      refine h.id_lt_of_bus (List.mem_map.mpr ⟨x, ?_, rfl⟩)
      simp [he]
    cases List.mem_append.mp hb with
    | inr hb =>
      have hge := (hnew b hb).left
      omega
    | inl hb =>
      cases List.mem_append.mp ha with
      | inl ha => exact h.order before x after he b hb hid a ha hlt hrev hf
      | inr ha =>
        have hge := (hnew a ha).left
        omega

theorem put {slug : String} {ledger : Option Ledger} (h : Sound fits s) : Sound fits (s.put slug ledger) :=
  ⟨h.ids, h.written, h.outbox, h.sent, h.cut, h.bus, h.refused, h.nodup, h.rows, h.marking, h.tries, h.ahead, h.order⟩

theorem writes {slug : String} {revision : ℕ} {before after : State} {ledger : Option Ledger} (h : Sound fits s) :
    Sound fits (s.writes slug revision before after ledger) := by
  unfold Store.writes
  split
  case h_1 => exact h
  case h_2 rows hw =>
    have hw := write_wrote hw
    exact (h.insert hw.ids hw.written).put

theorem crash (h : Sound fits s) : Sound fits s.crash := by
  have hcut : ∀ r ∈ s.inserted, s.crash.cut.count r.id = s.cut.count r.id + if s.marking = some r then 1 else 0 := by
    intro r hr
    simp only [Store.crash, Store.marking]
    split
    case isFalse => simp
    case isTrue hp =>
      cases hh : s.rows
      case nil => simp
      case cons row rest =>
        have hrow : row ∈ s.inserted := h.inserted_of_unsent (h.rows row (hh ▸ List.mem_cons_self))
        have heq : row.id = r.id ↔ row = r := ⟨h.eq_of_id hrow hr, fun he => he ▸ rfl⟩
        simp [List.count_singleton, heq]
  constructor
  case ids     => exact h.ids
  case written => exact h.written
  case outbox  => exact h.outbox
  case sent    => exact h.sent
  case bus     => exact h.bus
  case refused => exact h.refused
  case nodup   => exact List.nodup_nil
  case rows    => exact fun r hr => absurd hr List.not_mem_nil
  case marking => exact fun hp => by cases hp
  case order   => exact h.order
  case ahead   => exact fun before r after he => by simp [Store.crash] at he
  case cut =>
    intro id hid
    simp only [Store.crash] at hid
    split at hid
    case isFalse => exact h.cut id hid
    case isTrue  =>
      cases List.mem_append.mp hid with
      | inl hid => exact h.cut id hid
      | inr hid =>
        obtain ⟨row, hrow, rfl⟩ := by simpa using hid
        exact h.id_lt (h.inserted_of_unsent (h.rows row (List.mem_of_head? hrow)))
  case tries =>
    intro r hr
    calc
      s.tries r.id = s.cut.count r.id + (if r ∈ s.unsent then 0 else 1) + (if s.marking = some r then 1 else 0) :=
        h.tries r hr
      _ = s.crash.cut.count r.id + (if r ∈ s.unsent then 0 else 1) + 0 := by
        rw [hcut r hr]
        omega

theorem fetch {listing : List Row} {batch : ℕ} (h : Sound fits s) : Sound fits (s.fetch listing batch) := by
  unfold Store.fetch
  split
  case isFalse => exact h
  case isTrue hc =>
    obtain ⟨hrows, hperm, hsorted⟩ := hc
    have hp : s.published = false := by
      by_contra hp
      exact h.marking (by simpa using hp) hrows
    have hnodup : s.unsent.Nodup :=
      ((List.Nodup.of_map _ (h.ids ▸ List.nodup_range)).sublist h.outbox).filter _
    have hm : s.marking = none := by simp [Store.marking, hp]
    refine ⟨h.ids, h.written, h.outbox, h.sent, h.cut, h.bus, h.refused, ?nodup, ?rows, ?marking, ?tries, ?ahead, h.order⟩
    case nodup   => exact (hperm.nodup_iff.mpr hnodup).sublist (List.take_sublist _ _)
    case rows    => exact fun r hr => hperm.subset (List.mem_of_mem_take hr)
    case marking => exact fun hc => by simp [hp] at hc
    case tries =>
      intro r hr
      have hm' : Store.marking { s with rows := listing.take batch } = none := by simp [Store.marking, hp]
      rw [hm', ← hm]
      exact h.tries r hr
    case ahead =>
      intro before r after he a ha hlt hrev
      have he : listing.take batch = before ++ r :: after := he
      have hl : listing = before ++ r :: (after ++ listing.drop batch) := by
        have hl := (List.take_append_drop batch listing).symm
        rw [he] at hl
        simpa using hl
      have ha := hperm.symm.subset ha
      rw [hl] at ha hsorted
      have hpair := (List.pairwise_cons.mp (List.pairwise_append.mp hsorted).right.left).left
      cases List.mem_append.mp ha with
      | inl ha => exact ha
      | inr ha =>
        cases List.mem_cons.mp ha with
        | inl ha => exact absurd (ha ▸ hlt) (lt_irrefl _)
        | inr ha =>
          have hb := hpair a ha
          unfold Row.Before at hb
          omega

theorem prune {now window : ℤ} (h : Sound fits s) : Sound fits (s.prune now window) := by
  have hu : (s.prune now window).unsent = s.unsent := Store.unsent_prune
  refine ⟨h.ids, h.written, ?outbox, ?sent, h.cut, h.bus, h.refused, h.nodup, ?rows, h.marking, ?tries, ?ahead, h.order⟩
  case outbox => exact List.filter_sublist.trans h.outbox
  case sent =>
    intro id hid
    refine h.sent id fun hn => hid ?_
    simp [Store.prune, hn]
  case rows  => exact fun r hr => hu ▸ h.rows r hr
  case tries =>
    intro r hr
    rw [hu]
    exact h.tries r hr
  case ahead => exact fun before r after he a ha => h.ahead before r after he a (hu ▸ ha)

theorem unsent_mark {now : ℤ} (h : Sound fits s) (hrows : s.rows = r :: rest) (hp : s.published = true)
    (ha : a ∈ s.inserted) : a ∈ (s.mark now).unsent ↔ a ∈ s.unsent ∧ a ≠ r := by
  have hr := h.rows r (hrows ▸ List.mem_cons_self)
  simp only [Store.mem_unsent, Store.mark, hrows, hp, (Store.mem_unsent.mp hr).right, Option.none_or]
  by_cases he : a = r
  case pos => simp [he]
  case neg =>
    have hid : a.id ≠ r.id := fun hc => he (h.eq_of_id ha (h.inserted_of_unsent hr) hc)
    simp [Function.update_of_ne hid, he]

theorem mark {now : ℤ} (h : Sound fits s) : Sound fits (s.mark now) := by
  cases hrows : s.rows
  case nil => simpa [Store.mark, hrows] using h
  case cons r rest =>
    cases hp : s.published
    case false => simpa [Store.mark, hrows, hp] using h
    case true =>
      have hr := h.rows r (hrows ▸ List.mem_cons_self)
      have hin := h.inserted_of_unsent hr
      have hu {a : Row} (ha : a ∈ s.inserted) : a ∈ (s.mark now).unsent ↔ a ∈ s.unsent ∧ a ≠ r :=
        h.unsent_mark hrows hp ha
      have hout : (s.mark now).outbox = s.outbox := by simp [Store.mark, hrows, hp]
      have hins : (s.mark now).inserted = s.inserted := by simp [Store.mark, hrows, hp]
      have hrest : (s.mark now).rows = rest := by simp [Store.mark, hrows, hp]
      have hn := h.nodup
      rw [hrows, List.nodup_cons] at hn
      constructor
      case ids     => simpa [Store.mark, hrows, hp] using h.ids
      case written => simpa [Store.mark, hrows, hp] using h.written
      case outbox  => simpa [Store.mark, hrows, hp] using h.outbox
      case cut     => simpa [Store.mark, hrows, hp] using h.cut
      case bus     => simpa [Store.mark, hrows, hp] using h.bus
      case refused => simpa [Store.mark, hrows, hp] using h.refused
      case order   => simpa [Store.mark, hrows, hp] using h.order
      case nodup   => exact hrest ▸ hn.right
      case marking => simp [Store.mark, hrows, hp]
      case sent =>
        intro id hid
        simp only [Store.mark, hrows, hp] at hid ⊢
        by_cases he : id = r.id
        case pos => exact he ▸ h.id_lt hin
        case neg => exact h.sent id (by simpa [he] using hid)
      case rows =>
        intro a ha
        rw [hrest] at ha
        have hau := h.rows a (hrows ▸ List.mem_cons_of_mem r ha)
        exact (hu (h.inserted_of_unsent hau)).mpr ⟨hau, fun he => hn.left (he ▸ ha)⟩
      case ahead =>
        intro before b after he a ha hlt hrev
        have hain : a ∈ s.inserted := h.outbox.subset (hout ▸ (Store.mem_unsent.mp ha).left)
        obtain ⟨hau, hne⟩ := (hu hain).mp ha
        have hb : s.rows = (r :: before) ++ b :: after := by
          rw [hrows, ← hrest, he]
          rfl
        exact (List.mem_cons.mp (h.ahead _ b after hb a hau hlt hrev)).resolve_left hne
      case tries =>
        intro a ha
        rw [hins] at ha
        have ht := h.tries a ha
        have hm : s.marking = some r := by simp [Store.marking, hrows, hp]
        have hm' : (s.mark now).marking = none := by simp [Store.marking, Store.mark, hrows, hp]
        have htries : (s.mark now).tries a.id = s.tries a.id := by
          simp [Store.tries, Store.ids, Store.mark, hrows, hp]
        have hcut : (s.mark now).cut = s.cut := by simp [Store.mark, hrows, hp]
        rw [hm', htries, hcut, ht, hm]
        by_cases he : a = r
        case pos =>
          subst he
          have hnot : a ∉ (s.mark now).unsent := fun hc => ((hu ha).mp hc).right rfl
          simp [hr, hnot]
        case neg =>
          have hne : some r ≠ some a := fun hc => he (Option.some.inj hc).symm
          have hiff : a ∈ (s.mark now).unsent ↔ a ∈ s.unsent := by simp [hu ha, he]
          simp [hiff, Ne.symm he]

-- The row the relay publishes next is the first of those it fetched, and everything that goes before it is settled.
theorem order_publish {x : String × Event} (h : Sound fits s) (hrows : s.rows = r :: rest) (hx : x.2.id = r.id) :
    ∀ before y after, s.bus ++ [x] = before ++ y :: after → ∀ b ∈ s.inserted, b.id = y.2.id →
      ∀ a ∈ s.inserted, a.id < b.id → a.revision < b.revision → fits a.subject a.value = true →
      a.id ∈ before.map fun z => z.2.id := by
  intro before y after he b hb hid a ha hlt hrev hf
  cases List.eq_nil_or_concat after with
  | inl hn =>
    subst hn
    obtain ⟨rfl, rfl⟩ := List.append_inj' he rfl |>.imp_right List.singleton_inj.mp
    have hr := h.rows r (hrows ▸ List.mem_cons_self)
    obtain rfl := h.eq_of_id hb (h.inserted_of_unsent hr) (hid.trans hx)
    refine h.tried_of_not_unsent ha (fun hu => ?_) hf
    exact absurd (h.ahead [] b rest hrows a hu hlt hrev) List.not_mem_nil
  | inr hn =>
    obtain ⟨after, z, rfl⟩ := hn
    have he' : s.bus = before ++ y :: after := by
      rw [List.concat_eq_append, ← List.cons_append, ← List.append_assoc] at he
      exact (List.append_inj' he rfl).left
    exact h.order before y after he' b hb hid a ha hlt hrev hf

theorem tries_publish (h : Sound fits s) (hrows : s.rows = r :: rest) (hp : s.published = false) (hc : t.cut = s.cut)
    (hu : t.unsent = s.unsent) (hm : t.marking = some r) (ht : ∀ id, t.tries id = s.tries id + [r.id].count id) :
    ∀ a ∈ s.inserted, t.tries a.id =
      t.cut.count a.id + (if a ∈ t.unsent then 0 else 1) + (if t.marking = some a then 1 else 0) := by
  intro a ha
  have hin := h.inserted_of_unsent (h.rows r (hrows ▸ List.mem_cons_self))
  have hone : [r.id].count a.id = if some r = some a then 1 else 0 := by
    have heq : r.id = a.id ↔ r = a := ⟨h.eq_of_id hin ha, fun he => he ▸ rfl⟩
    simp [List.count_singleton, heq]
  have hs : s.marking ≠ some a := by simp [Store.marking, hp]
  have hold := h.tries a ha
  rw [if_neg hs] at hold
  rw [ht, hc, hu, hm, hone]
  omega

theorem publish (h : Sound fits s) : Sound fits (s.publish fits) := by
  cases hrows : s.rows
  case nil => simpa [Store.publish, hrows] using h
  case cons r rest =>
    cases hp : s.published
    case true => simpa [Store.publish, hrows, hp] using h
    case false =>
      have hr := h.rows r (hrows ▸ List.mem_cons_self)
      have hin := h.inserted_of_unsent hr
      have hw := h.written r hin
      simp only [Store.publish, hrows, hp, hw.slim]
      split
      case isTrue hf =>
        refine ⟨h.ids, h.written, h.outbox, h.sent, h.cut, ?bus, h.refused, hrows ▸ h.nodup, hrows ▸ h.rows, by simp,
          ?tries, hrows ▸ h.ahead, h.order_publish hrows hw.event⟩
        case bus =>
          intro x hx
          cases List.mem_append.mp hx with
          | inl hx => exact h.bus x hx
          | inr hx => exact ⟨r, hin, List.mem_singleton.mp hx, hf⟩
        case tries =>
          refine h.tries_publish hrows hp rfl rfl rfl fun id => ?_
          simp only [Store.tries, Store.ids, List.map_append, List.count_append, List.map_cons, List.map_nil, hw.event]
          omega
      case isFalse hf =>
        refine ⟨h.ids, h.written, h.outbox, h.sent, h.cut, h.bus, ?refused, hrows ▸ h.nodup, hrows ▸ h.rows, by simp,
          ?tries, hrows ▸ h.ahead, h.order⟩
        case refused =>
          intro id hid
          cases List.mem_append.mp hid with
          | inl hid => exact h.refused id hid
          | inr hid => exact ⟨r, hin, (List.mem_singleton.mp hid).symm, by simpa using hf⟩
        case tries =>
          refine h.tries_publish hrows hp rfl rfl rfl fun id => ?_
          simp only [Store.tries, Store.ids, List.count_append]
          omega

theorem step {e : Action} (h : Sound fits s) : Sound fits (Relay.step fits s e) := by
  cases e
  case commit slug after changed =>
    simp only [Relay.step, Store.commit]
    split
    case h_1 => exact h
    case h_2 => exact h.writes
  case create slug rev state replace =>
    simp only [Relay.step, Store.create]
    split
    case h_1 => exact h.writes
    case h_2 =>
      split
      case isTrue  => exact h.writes
      case isFalse => exact h
  case purge slug =>
    simp only [Relay.step, Store.purge]
    split
    case h_1 => exact h
    case h_2 => exact h.writes
  case fetch   => exact h.fetch
  case publish => exact h.publish
  case mark    => exact h.mark
  case crash   => exact h.crash
  case prune   => exact h.prune

theorem run (h : Sound fits s) {es : List Action} : Sound fits (Run.run (Relay.step fits) s es) :=
  Run.Along.invariant (P := fun _ _ => True) (fun _ _ h _ => h.step) h (.of_forall fun _ _ => trivial)

end Sound
end Relay

-- What the bus gets of the rows, in which order, and how often.

namespace Relay

variable {fits : String → Event → Bool} {s t : Store} {rows rest : List Row} {r a b : Row} {id : ℕ}

-- A ledger is not created again, or imported, below the revision its rows have reached.
def Climbs (s : Store) : Action → Prop
  | .create slug rev _ _ => ∀ r ∈ s.inserted, r.slug = slug → r.revision ≤ rev
  | _                    => True

structure Climbing (s : Store) : Prop where
  reached : ∀ slug ledger, s.ledgers slug = some ledger → ∀ r ∈ s.inserted, r.slug = slug → r.revision ≤ ledger.rev
  sorted  : s.inserted.Pairwise fun a b => a.slug = b.slug → a.revision ≤ b.revision

namespace Climbing

theorem start : Climbing .start where
  reached := fun _ _ h => by cases h
  sorted  := .nil

theorem writes {slug : String} {revision : ℕ} {before after : State} {ledger : Option Ledger} (h : Climbing s)
    (hle : ∀ r ∈ s.inserted, r.slug = slug → r.revision ≤ revision) (hl : ∀ l, ledger = some l → l.rev = revision) :
    Climbing (s.writes slug revision before after ledger) := by
  unfold Store.writes
  split
  case h_1 => exact h
  case h_2 rows hw =>
    have hof := (write_wrote hw).of
    constructor
    case reached =>
      intro other l hs r hr he
      by_cases ho : other = slug
      case pos =>
        subst ho
        have hl := hl l (by simpa [Store.put] using hs)
        cases List.mem_append.mp hr with
        | inl hr => exact hl ▸ hle r hr he
        | inr hr => rw [hl, (hof r hr).right]
      case neg =>
        have hs : s.ledgers other = some l := by simpa [Store.put, Store.insert, ho] using hs
        cases List.mem_append.mp hr with
        | inl hr => exact h.reached other l hs r hr he
        | inr hr => exact absurd (he.symm.trans (hof r hr).left) ho
    case sorted =>
      refine List.pairwise_append.mpr ⟨h.sorted, ?_, fun a ha b hb he => ?_⟩
      · exact List.pairwise_of_forall_mem_list fun a ha b hb _ => by rw [(hof a ha).right, (hof b hb).right]
      · rw [(hof b hb).right]
        exact hle a ha (he.trans (hof b hb).left)

theorem congr (h : Climbing s) (hi : t.inserted = s.inserted) (hl : t.ledgers = s.ledgers) : Climbing t :=
  ⟨by rw [hi, hl]; exact h.reached, hi ▸ h.sorted⟩

theorem step {e : Action} (h : Climbing s) (he : Climbs s e) : Climbing (Relay.step fits s e) := by
  cases e
  case commit slug after changed =>
    simp only [Relay.step, Store.commit]
    split
    case h_1 => exact h
    case h_2 ledger hs =>
      refine h.writes (fun r hr hslug => ?_) (by simp)
      have hle := h.reached slug ledger hs r hr hslug
      split <;> omega
  case create slug rev state replace =>
    simp only [Relay.step, Store.create]
    split
    case h_1 => exact h.writes he (by simp)
    case h_2 =>
      split
      case isTrue  => exact h.writes he (by simp)
      case isFalse => exact h
  case purge slug =>
    simp only [Relay.step, Store.purge]
    split
    case h_1 => exact h
    case h_2 ledger hs => exact h.writes (h.reached slug ledger hs) (by simp)
  case fetch =>
    simp only [Relay.step, Store.fetch]
    split
    case isTrue  => exact h.congr rfl rfl
    case isFalse => exact h
  case publish =>
    simp only [Relay.step, Store.publish]
    split
    case h_2 => exact h
    case h_1 =>
      split
      case h_1 => exact h.congr rfl rfl
      case h_2 => split <;> exact h.congr rfl rfl
  case mark =>
    simp only [Relay.step, Store.mark]
    split
    case h_1 => exact h.congr rfl rfl
    case h_2 => exact h
  case crash => exact h.congr rfl rfl
  case prune => exact h.congr rfl rfl

theorem run {es : List Action} (he : Run.Along (Relay.step fits) Climbs .start es) :
    Climbing (Run.run (Relay.step fits) .start es) :=
  Run.Along.invariant (fun _ _ h he => h.step he) start he

-- Where revisions climb, the row of the lower revision is the older one.
theorem sublist (h : Climbing s) (ha : a ∈ s.inserted) (hb : b ∈ s.inserted) (hs : a.slug = b.slug)
    (hlt : a.revision < b.revision) : [a, b].Sublist s.inserted := by
  have hne : a ≠ b := fun he => absurd (he ▸ hlt) (lt_irrefl _)
  obtain ⟨l₁, l₂, he⟩ := List.append_of_mem hb
  have hp := h.sorted
  rw [he] at ha hp ⊢
  cases List.mem_append.mp ha with
  | inl ha =>
    exact (List.singleton_sublist.mpr ha).append (List.singleton_sublist.mpr List.mem_cons_self)
  | inr ha =>
    have ha := (List.mem_cons.mp ha).resolve_left hne
    have hle := (List.pairwise_cons.mp (List.pairwise_append.mp hp).right.left).left a ha hs.symm
    omega

end Climbing

namespace Sound

theorem id_lt_of_sublist (h : Sound fits s) (hs : [a, b].Sublist s.inserted) : a.id < b.id := by
  have hm : [a.id, b.id].Sublist (List.range s.drawn) := h.ids ▸ hs.map Row.id
  have hp := List.pairwise_lt_range.sublist hm
  simpa using hp

theorem marked (h : Sound fits s) (hs : s.sent id ≠ none) : ∃ r ∈ s.inserted, r.id = id ∧ Settled fits s r := by
  have hm : id ∈ s.inserted.map Row.id := h.ids ▸ List.mem_range.mpr (h.sent id hs)
  obtain ⟨r, hr, rfl⟩ := List.mem_map.mp hm
  exact ⟨r, hr, rfl, (h.unsent_or_settled hr).resolve_left fun hu => hs (Store.mem_unsent.mp hu).right⟩

theorem first (h : Sound fits s) {before after : List (String × Event)} {x : String × Event}
    (he : s.bus = before ++ x :: after) (hs : [a, b].Sublist s.inserted) (hlt : a.revision < b.revision)
    (hx : x.2.id = b.id) (hf : fits a.subject a.value = true) : (a.subject, a.value) ∈ before := by
  have ha : a ∈ s.inserted := hs.subset (by simp)
  have hb : b ∈ s.inserted := hs.subset (by simp)
  have hm := h.order before x after he b hb hx.symm a ha (h.id_lt_of_sublist hs) hlt hf
  obtain ⟨y, hy, hid⟩ := List.mem_map.mp hm
  obtain ⟨r, hr, rfl, -⟩ := h.bus y (he ▸ List.mem_append_left _ hy)
  obtain rfl := h.eq_of_id hr ha ((h.written r hr).event ▸ hid)
  exact hy

end Sound

-- A pass of the relay that nothing cuts short: it publishes and marks each row it fetched.
def pass (listing : List Row) (batch : ℕ) (now : ℤ) : List Action :=
  .fetch listing batch :: (listing.take batch).flatMap fun _ => [.publish, .mark now]

-- Passes over what the query gives, one after the other.
def Passes (fits : String → Event → Bool) (batch : ℕ) : Store → List (List Row × ℤ) → Prop
  | _, []                     => True
  | s, (listing, now) :: rest =>
    listing.Perm s.unsent ∧ listing.Pairwise Row.Before ∧
      Passes fits batch (Run.run (step fits) s (pass listing batch now)) rest

namespace Sound

-- What is left to send after the fetched rows are sent.
structure Sends (s t : Store) (n : ℕ) : Prop where
  rows      : t.rows = []
  published : t.published = false
  inserted  : t.inserted = s.inserted
  unsent    : t.unsent.length + n = s.unsent.length

end Sound
end Relay
