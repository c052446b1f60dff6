import Agentihooks.Ledger.EventLog

namespace Ledger.EventLog

section Rows

variable {δ : Type} {rows rows' : Rows δ} {l : List (Key δ × Row)}

-- The rows of a list in the order of their positions. The key of an appended row says its position, hence a position
-- after all of them is the key of none.
structure Listing (rows : Rows δ) (l : List (Key δ × Row)) : Prop where
  perm     : rows.toList.Perm l
  sorted   : l.Pairwise fun x y => x.2.position < y.2.position
  revision : ∀ x ∈ l, x.2.revision = x.2.value.rev
  appended : ∀ position row, (.appended position, row) ∈ l → row.position = position

namespace Listing

theorem empty : Listing (∅ : Rows δ) [] where
  perm     := List.Perm.nil
  sorted   := List.Pairwise.nil
  revision := by simp
  appended := by simp

theorem eq_of_position (h : Listing rows l) {x y : Key δ × Row} (hx : x ∈ l) (hy : y ∈ l)
    (hp : x.2.position = y.2.position) : x = y := by
  have ht : l.Pairwise fun x y => x.2.position = y.2.position → x = y :=
    h.sorted.imp fun hlt he => absurd he hlt.ne
  have hf : l.Pairwise (flip fun x y => x.2.position = y.2.position → x = y) :=
    h.sorted.imp fun hlt he => absurd he hlt.ne'
  exact List.Pairwise.forall_of_forall_of_flip (fun _ _ _ => rfl) ht hf hx hy hp

theorem ordered_eq (h : Listing rows l) : ordered rows = l := by
  have hp : (ordered rows).Perm l := (List.perm_insertionSort _ _).trans h.perm
  refine hp.eq_of_pairwise (fun x y hx hy hxy hyx => ?_) (List.pairwise_insertionSort _ _) (h.sorted.imp fun hlt => hlt.le)
  exact h.eq_of_position (hp.subset hx) hy (le_antisymm hxy hyx)

theorem readEvents_eq (h : Listing rows l) : readEvents rows = l.map fun x => x.2.value := by
  rw [readEvents, h.ordered_eq]

theorem lt_start (h : Listing rows l) {x : Key δ × Row} (hx : x ∈ l) : x.2.position < start rows := by
  have hm : x.2.position ∈ rows.toList.map fun x => x.2.position :=
    List.mem_map_of_mem (h.perm.mem_iff.mpr hx)
  rw [start]
  cases hp : (rows.toList.map fun x => x.2.position).max?
  case none =>
    rw [List.max?_eq_none_iff] at hp
    simp [hp] at hm
  case some n =>
    have hle := (List.max?_eq_some_iff.mp hp).right _ hm
    simp only [Option.map_some, Option.getD_some]
    omega

-- The newest positions are those at the end of the list.
theorem newest_eq (h : Listing rows l) (kept : ℕ) :
    ((rows.toList.map fun x => x.2.position).insertionSort fun x y => y ≤ x).take kept =
      ((l.drop (l.length - kept)).map fun x => x.2.position).reverse := by
  have hp : (rows.toList.map fun x => x.2.position).Perm (l.map fun x => x.2.position).reverse :=
    (h.perm.map _).trans (List.reverse_perm _).symm
  have hs : ((rows.toList.map fun x => x.2.position).insertionSort fun x y => y ≤ x) =
      (l.map fun x => x.2.position).reverse := by
    refine ((List.perm_insertionSort _ _).trans hp).eq_of_pairwise (fun x y _ _ hxy hyx => le_antisymm hyx hxy)
      (List.pairwise_insertionSort _ _) ?_
    rw [List.pairwise_reverse, List.pairwise_map]
    exact h.sorted.imp fun hlt => hlt.le
  rw [hs, List.take_reverse, List.length_map, List.map_drop]

theorem filter_drop (h : Listing rows l) (n : ℕ) :
    (l.filter fun x => x.2.position ∈ ((l.drop n).map fun x => x.2.position).reverse) = l.drop n := by
  have hs : (l.take n ++ l.drop n).Pairwise fun x y => x.2.position < y.2.position := by
    rw [List.take_append_drop]
    exact h.sorted
  have hd := (List.pairwise_append.mp hs).right.right
  have ht : (l.take n).filter (fun x => x.2.position ∈ ((l.drop n).map fun x => x.2.position).reverse) = [] := by
    rw [List.filter_eq_nil_iff]
    intro x hx hm
    rw [decide_eq_true_eq, List.mem_reverse, List.mem_map] at hm
    obtain ⟨y, hy, he⟩ := hm
    exact (hd x hx y hy).ne' he
  have hk : (l.drop n).filter (fun x => x.2.position ∈ ((l.drop n).map fun x => x.2.position).reverse) = l.drop n := by
    rw [List.filter_eq_self]
    intro x hx
    rw [decide_eq_true_eq, List.mem_reverse]
    exact List.mem_map_of_mem hx
  calc l.filter _ = (l.take n ++ l.drop n).filter _ := by rw [List.take_append_drop]
    _ = l.drop n := by rw [List.filter_append, ht, hk, List.nil_append]

variable [DecidableEq δ]

theorem mem_iff (h : Listing rows l) {key : Key δ} {row : Row} : (key, row) ∈ l ↔ rows.lookup key = some row := by
  rw [← h.perm.mem_iff, KeyTable.mem_toList]

theorem append (h : Listing rows l) {position : ℕ} (event : Event) (hp : ∀ x ∈ l, x.2.position < position) :
    ∃ rows', insertRow rows (.appended position) ⟨event.rev, position, event⟩ = some rows' ∧
      Listing rows' (l ++ [(.appended position, ⟨event.rev, position, event⟩)]) := by
  have hk : Key.appended position ∉ rows := by
    intro hm
    obtain ⟨row, hr⟩ := Option.isSome_iff_exists.mp (AList.lookup_isSome.mpr hm)
    have hl := h.mem_iff.mpr hr
    have hlt := hp _ hl
    have he := h.appended position row hl
    dsimp only at hlt
    omega
  refine ⟨_, if_neg hk, ?_⟩
  constructor
  case perm =>
    have ht : KeyTable.toList (rows.insert (Key.appended position) ⟨event.rev, position, event⟩) =
        (Key.appended position, ⟨event.rev, position, event⟩) :: rows.toList := by
      rw [KeyTable.toList, AList.entries_insert_of_notMem hk]
      rfl
    rw [ht]
    exact (h.perm.cons _).trans (List.perm_append_singleton _ _).symm
  case sorted =>
    rw [List.pairwise_append]
    refine ⟨h.sorted, List.pairwise_singleton _ _, fun x hx y hy => ?_⟩
    rw [List.mem_singleton] at hy
    exact hy ▸ hp x hx
  case revision =>
    intro x hx
    rw [List.mem_append, List.mem_singleton] at hx
    cases hx
    case inl hx => exact h.revision x hx
    case inr hx => rw [hx]
  case appended =>
    intro position' row hx
    rw [List.mem_append, List.mem_singleton] at hx
    cases hx
    case inl hx => exact h.appended position' row hx
    case inr hx =>
      cases hx
      rfl

theorem appendFrom {events : List Event} (h : Listing rows l) {position : ℕ} (hp : ∀ x ∈ l, x.2.position < position)
    (hr : ∀ event ∈ events, event.rev ≠ none) :
    ∃ rows' l', EventLog.appendFrom rows position events = some rows' ∧ Listing rows' (l ++ l') ∧
      l'.map (fun x => x.2.value) = events := by
  induction events generalizing rows l position
  case nil => exact ⟨rows, [], rfl, by simpa using h, rfl⟩
  case cons event events hi =>
    obtain ⟨next, hn, hl⟩ := h.append event hp
    have hlt : ∀ x ∈ l ++ [(Key.appended position, ⟨event.rev, position, event⟩)], x.2.position < position + 1 := by
      intro x hx
      rw [List.mem_append, List.mem_singleton] at hx
      cases hx
      case inl hx => exact (hp x hx).trans (Nat.lt_succ_self _)
      case inr hx => simp [hx]
    obtain ⟨rows', l', ha, hl', hv⟩ := hi hl hlt fun e he => hr e (List.mem_cons_of_mem _ he)
    refine ⟨rows', _ :: l', ?_, by rwa [List.append_assoc] at hl', by rw [List.map_cons, hv]⟩
    have hs : event.rev.isNone = false := by
      rw [Option.isNone_eq_false_iff, Option.isSome_iff_ne_none]
      exact hr event List.mem_cons_self
    rw [EventLog.appendFrom, hs, if_neg Bool.false_ne_true, hn]
    exact ha

theorem trimEvents (h : Listing rows l) (kept : ℕ) :
    Listing (EventLog.trimEvents rows kept) (l.drop (l.length - kept)) := by
  have hd : ∀ x ∈ l.drop (l.length - kept), x ∈ l := fun x hx => List.drop_subset _ _ hx
  constructor
  case perm =>
    have hn : ((rows.toList.filter fun x =>
        x.2.position ∈ ((l.drop (l.length - kept)).map fun x => x.2.position).reverse).map Prod.fst).Nodup :=
      KeyTable.nodup_toList.sublist (List.filter_sublist.map _)
    rw [EventLog.trimEvents, h.newest_eq]
    refine (KeyTable.perm_of_lookup hn fun _ => KeyTable.lookup_ofList hn).trans ?_
    have hp := h.perm.filter fun x =>
      decide (x.2.position ∈ ((l.drop (l.length - kept)).map fun x => x.2.position).reverse)
    rwa [h.filter_drop] at hp
  case sorted   => exact h.sorted.drop
  case revision => exact fun x hx => h.revision x (hd x hx)
  case appended => exact fun position row hx => h.appended position row (hd _ hx)

end Listing

section Desired

variable [DecidableEq δ] {sha256 : Event → δ} {seen : List δ} {position : ℕ} {events : List Event}

theorem key_desired {x : Key δ × Row} (h : x ∈ desired sha256 seen position events) :
    ∃ digest occurrence, x.1 = .written digest occurrence ∧ seen.count digest ≤ occurrence := by
  induction events generalizing seen position
  case nil => cases h
  case cons event events hi =>
    rw [desired, List.mem_cons] at h
    cases h
    case inl h => exact ⟨_, _, congrArg Prod.fst h, le_rfl⟩
    case inr h =>
      obtain ⟨digest, occurrence, hk, hc⟩ := hi h
      exact ⟨digest, occurrence, hk, (List.count_le_count_cons).trans hc⟩

theorem nodup_desired : ((desired sha256 seen position events).map Prod.fst).Nodup := by
  induction events generalizing seen position
  case nil => exact List.nodup_nil
  case cons event events hi =>
    rw [desired, List.map_cons, List.nodup_cons]
    refine ⟨fun hm => ?_, hi⟩
    -- A later occurrence of the digest counts this one.
    obtain ⟨x, hx, hk⟩ := List.mem_map.mp hm
    obtain ⟨digest, occurrence, hw, hc⟩ := key_desired hx
    rw [hk] at hw
    cases hw
    rw [List.count_cons_self] at hc
    omega

theorem position_le_of_mem_desired {x : Key δ × Row} (h : x ∈ desired sha256 seen position events) :
    position ≤ x.2.position := by
  induction events generalizing seen position
  case nil => cases h
  case cons event events hi =>
    rw [desired, List.mem_cons] at h
    cases h
    case inl h => simp [h]
    case inr h => exact (Nat.le_succ _).trans (hi h)

theorem sorted_desired : (desired sha256 seen position events).Pairwise fun x y => x.2.position < y.2.position := by
  induction events generalizing seen position
  case nil => exact List.Pairwise.nil
  case cons event events hi =>
    rw [desired, List.pairwise_cons]
    exact ⟨fun x hx => position_le_of_mem_desired hx, hi⟩

theorem revision_desired {x : Key δ × Row} (h : x ∈ desired sha256 seen position events) :
    x.2.revision = x.2.value.rev := by
  induction events generalizing seen position
  case nil => cases h
  case cons event events hi =>
    rw [desired, List.mem_cons] at h
    cases h
    case inl h => rw [h]
    case inr h => exact hi h

theorem values_desired : (desired sha256 seen position events).map (fun x => x.2.value) = events := by
  induction events generalizing seen position
  case nil => rfl
  case cons event events hi => rw [desired, List.map_cons, hi]

theorem listing_desired (h : ∀ key, rows.lookup key = (desired sha256 seen position events).lookup key) :
    Listing rows (desired sha256 seen position events) where
  perm     := KeyTable.perm_of_lookup nodup_desired h
  sorted   := sorted_desired
  revision := fun _ hx => revision_desired hx
  appended := by
    intro position row hx
    obtain ⟨_, _, hk, _⟩ := key_desired hx
    cases hk

end Desired

section Write

variable [DecidableEq δ] {sha256 : Event → δ} {events : List Event}

-- A row that is kept has the revision of the event it holds, therefore its new position is all that can change of it.
theorem writeChange_eq {key : Key δ} {o : Option Row} (hr : ∀ key row, rows.lookup key = some row → row.revision = row.value.rev)
    (ho : ∀ row, o = some row → row.revision = row.value.rev) (h : writeChange rows key o = some rows') :
    rows' = KeyTable.change rows (key, o) := by
  cases o
  case none =>
    cases h
    rfl
  case some row =>
    have hi (hs : insertRow rows key row = some rows') : rows' = KeyTable.change rows (key, some row) := by
      rw [insertRow] at hs
      split_ifs at hs
      cases hs
      rfl
    rw [writeChange] at h
    split at h
    case h_1 => exact hi h
    case h_2 old ho' =>
      split_ifs at h with hv
      case neg => exact hi h
      case pos =>
        cases h
        have he : ({ old with position := row.position } : Row) = row := by
          have hrev := hr key old ho'
          have hrow := ho row rfl
          obtain ⟨_, _, _⟩ := old
          obtain ⟨_, _, _⟩ := row
          simp_all
        rw [he]
        rfl

theorem writeChanges_eq {xs : List (Key δ × Option Row)}
    (hr : ∀ key row, rows.lookup key = some row → row.revision = row.value.rev)
    (hx : ∀ x ∈ xs, ∀ row, x.2 = some row → row.revision = row.value.rev) (h : writeChanges rows xs = some rows') :
    rows' = xs.foldl KeyTable.change rows := by
  induction xs generalizing rows
  case nil =>
    cases h
    rfl
  case cons x xs hi =>
    rw [writeChanges, Option.bind_eq_some_iff] at h
    obtain ⟨next, hn, h⟩ := h
    have he : next = KeyTable.change rows x := writeChange_eq hr (hx x List.mem_cons_self) hn
    rw [List.foldl_cons, ← he]
    refine hi (fun key row hl => ?_) (fun y hy => hx y (List.mem_cons_of_mem _ hy)) h
    rw [he, KeyTable.lookup_change] at hl
    split_ifs at hl
    case pos => exact hx x List.mem_cons_self row hl
    case neg => exact hr key row hl

theorem Listing.writeEvents {l : List (Key δ × Row)} (h : Listing rows l)
    (hw : EventLog.writeEvents sha256 rows events = some rows') : Listing rows' (desired sha256 [] 0 events) := by
  rw [EventLog.writeEvents] at hw
  split_ifs at hw
  have hd (key : Key δ) : (KeyTable.ofList (desired sha256 [] 0 events)).lookup key =
      (desired sha256 [] 0 events).lookup key :=
    KeyTable.lookup_ofList nodup_desired
  have hx : ∀ x ∈ KeyTable.changes rows (KeyTable.ofList (desired sha256 [] 0 events)), ∀ row, x.2 = some row →
      row.revision = row.value.rev := by
    rintro ⟨key, o⟩ hx row hr
    have hl := (KeyTable.mem_changes.mp hx).right
    rw [hd] at hl
    have hm := (JsonValue.lookup_eq_some_iff_mem nodup_desired).mp (hl.symm.trans hr)
    exact revision_desired hm
  have he := writeChanges_eq (fun key row hl => h.revision _ (h.mem_iff.mpr hl)) hx hw
  refine listing_desired fun key => ?_
  rw [he, ← hd]
  exact KeyTable.lookup_sync

-- Into an empty table every row is inserted.
theorem writeEvents_empty (sha256 : Event → δ) (h : ∀ event ∈ events, event.rev ≠ none) :
    ∃ rows : Rows δ, writeEvents sha256 ∅ events = some rows := by
  have hs (xs : List (Key δ × Option Row)) (rows : Rows δ) (hn : (xs.map Prod.fst).Nodup)
      (hx : ∀ x ∈ xs, x.2 ≠ none ∧ x.1 ∉ rows) : ∃ rows', writeChanges rows xs = some rows' := by
    induction xs generalizing rows
    case nil => exact ⟨rows, rfl⟩
    case cons x xs hi =>
      obtain ⟨key, o⟩ := x
      obtain ⟨ho, hk⟩ := hx _ List.mem_cons_self
      obtain ⟨row, rfl⟩ := Option.ne_none_iff_exists'.mp ho
      rw [List.map_cons, List.nodup_cons] at hn
      have hc : writeChange rows key (some row) = some (rows.insert key row) := by
        simp only [writeChange, AList.lookup_eq_none.mpr hk, insertRow, if_neg hk]
      simp only [writeChanges, hc, Option.bind_some]
      refine hi _ hn.right fun y hy => ⟨(hx y (List.mem_cons_of_mem _ hy)).left, fun hm => ?_⟩
      rw [AList.mem_insert] at hm
      cases hm
      case inl he => exact hn.left (List.mem_map.mpr ⟨y, hy, he⟩)
      case inr hm => exact (hx y (List.mem_cons_of_mem _ hy)).right hm
  have ha : (events.any fun event => event.rev.isNone) = false := by
    rw [List.any_eq_false]
    intro event he
    simpa using h event he
  rw [writeEvents, ha, if_neg Bool.false_ne_true]
  refine hs _ ∅ KeyTable.nodup_changes fun x hx => ⟨fun ho => ?_, AList.notMem_empty _⟩
  obtain ⟨key, o⟩ := x
  obtain ⟨hne, hl⟩ := KeyTable.mem_changes.mp hx
  exact hne ((AList.lookup_empty key).trans (ho.symm.trans hl))

end Write

end Rows

end Ledger.EventLog
