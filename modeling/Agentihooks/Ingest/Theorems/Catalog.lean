import Mathlib.Order.Bounds.Basic
import Agentihooks.Ingest.Request
import Agentihooks.Ingest.Catalog

namespace Ingest

open JsonValue

namespace Catalog

variable {c c₁ c₂ c₃ : Catalog} {b : BatchCommit} {e : StoredEvent} {item : Rejection} {key : Scope × ℤ} {v : Settled}

-- An event as the batches hold them: its id and its hash are those of its place and its record.
structure Formed (scope : Scope) (e : StoredEvent) : Prop where
  hash     : e.normalizedHash = content e.record
  identity : e.eventId = content (.array [.scalar (.str scope.sessionUid), .scalar (.str scope.sourceGeneration),
    .scalar (.int e.sequence), .scalar (.int e.byteStart), .scalar (.int e.byteEnd)])
  positive : 1 ≤ e.sequence

-- What holds of the rows of every catalog: no sequence is both an event and in quarantine.
structure Rows (c : Catalog) : Prop where
  once       : ∀ key, c.events.lookup key = none ∨ c.quarantine.lookup key = none
  events     : ∀ key row, c.events.lookup key = some row → row.sequence = key.2 ∧ Formed key.1 row
  quarantine : ∀ key row, c.quarantine.lookup key = some row → row.sequence = key.2 ∧ 1 ≤ row.sequence

theorem Rows.congr (he : c₁.events = c.events) (hq : c₁.quarantine = c.quarantine) (h : Rows c) : Rows c₁ where
  once       := by rw [he, hq]; exact h.once
  events     := by rw [he]; exact h.events
  quarantine := by rw [hq]; exact h.quarantine

abbrev Settlement := (Scope × ℤ) × Settled

-- A catalog after some settlements: rows stay as they were, and each new one is one of these.
structure Extends (c c' : Catalog) (l : List Settlement) : Prop where
  rows       : Rows c → Rows c'
  events     : ∀ key row, c.events.lookup key = some row → c'.events.lookup key = some row
  quarantine : ∀ key row, c.quarantine.lookup key = some row → c'.quarantine.lookup key = some row
  new        : ∀ x ∈ l, c'.settled x.1 = some x.2
  old        : ∀ key v, c'.settled key = some v → c.settled key = some v ∨ (key, v) ∈ l

-- The same by insertions alone.
structure Inserts (c c' : Catalog) (l : List Settlement) : Prop extends Extends c c' l where
  batches    : c'.batches = c.batches
  watermarks : c'.watermarks = c.watermarks

theorem settled_eq_none : c.settled key = none ↔ c.events.lookup key = none ∧ c.quarantine.lookup key = none := by
  simp [settled, Option.or_eq_none_iff]

theorem settled_event {row : StoredEvent} (h : c.events.lookup key = some row) : c.settled key = some row.settled := by
  simp [settled, h]

theorem settled_quarantine {row : Rejection} (hn : c.events.lookup key = none) (h : c.quarantine.lookup key = some row) :
    c.settled key = some row.settled := by
  simp [settled, hn, h]

theorem Rows.quarantined {row : Rejection} (hc : Rows c) (h : c.quarantine.lookup key = some row) :
    c.settled key = some row.settled := by
  obtain hn | hn := hc.once key
  · exact settled_quarantine hn h
  · exact absurd (hn.symm.trans h) (by simp)

-- A settled sequence has a row of one of the tables.
theorem settled_cases (h : c.settled key = some v) : (∃ row, c.events.lookup key = some row ∧ row.settled = v) ∨
    ∃ row, c.quarantine.lookup key = some row ∧ row.settled = v := by
  cases he : c.events.lookup key with
  | some row => exact .inl ⟨row, rfl, Option.some.inj ((settled_event he).symm.trans h)⟩
  | none     =>
    cases hq : c.quarantine.lookup key with
    | some row => exact .inr ⟨row, rfl, Option.some.inj ((settled_quarantine he hq).symm.trans h)⟩
    | none     => exact absurd ((settled_eq_none.mpr ⟨he, hq⟩).symm.trans h) (by simp)

theorem Extends.settled {l : List Settlement} (h : Extends c c₁ l) (hc : Rows c) (hs : c.settled key = some v) :
    c₁.settled key = some v := by
  obtain ⟨row, he, rfl⟩ | ⟨row, hq, rfl⟩ := settled_cases hs
  · exact settled_event (h.events key row he)
  · exact (h.rows hc).quarantined (h.quarantine key row hq)

theorem Inserts.refl : Inserts c c [] where
  rows       := id
  events     := fun _ _ => id
  quarantine := fun _ _ => id
  new        := by simp
  old        := fun _ _ => .inl
  batches    := rfl
  watermarks := rfl

-- What was settled so already.
theorem Inserts.again (h : c.settled key = some v) : Inserts c c [(key, v)] where
  rows       := id
  events     := fun _ _ => id
  quarantine := fun _ _ => id
  new        := by simpa using h
  old        := fun _ _ => .inl
  batches    := rfl
  watermarks := rfl

theorem Inserts.append {l₁ l₂ : List Settlement} (hc : Rows c₁) (h₁ : Inserts c₁ c₂ l₁) (h₂ : Inserts c₂ c₃ l₂) :
    Inserts c₁ c₃ (l₁ ++ l₂) where
  rows       := h₂.rows ∘ h₁.rows
  events     := fun key row h => h₂.events key row (h₁.events key row h)
  quarantine := fun key row h => h₂.quarantine key row (h₁.quarantine key row h)
  new        := by
    intro x hx
    obtain hx | hx := List.mem_append.mp hx
    · exact h₂.toExtends.settled (h₁.rows hc) (h₁.new x hx)
    · exact h₂.new x hx
  old        := by
    intro key v h
    obtain h | h := h₂.old key v h
    · exact (h₁.old key v h).imp_right (List.mem_append_left _)
    · exact .inr (List.mem_append_right _ h)
  batches    := h₂.batches.trans h₁.batches
  watermarks := h₂.watermarks.trans h₁.watermarks

-- A new row for a sequence that was not settled.
theorem Inserts.row {k : Scope × ℤ} (hn : c.settled k = none) (hk : c₁.settled k = some v)
    (he : ∀ key, key ≠ k → c₁.events.lookup key = c.events.lookup key)
    (hq : ∀ key, key ≠ k → c₁.quarantine.lookup key = c.quarantine.lookup key)
    (once : c₁.events.lookup k = none ∨ c₁.quarantine.lookup k = none)
    (event : ∀ row, c₁.events.lookup k = some row → row.sequence = k.2 ∧ Formed k.1 row)
    (quarantine : ∀ row, c₁.quarantine.lookup k = some row → row.sequence = k.2 ∧ 1 ≤ row.sequence)
    (hb : c₁.batches = c.batches) (hw : c₁.watermarks = c.watermarks) : Inserts c c₁ [(k, v)] where
  rows       := by
    intro hc
    refine ⟨fun key => ?_, fun key row h => ?_, fun key row h => ?_⟩
    all_goals by_cases hkey : key = k
    · exact hkey ▸ once
    · rw [he key hkey, hq key hkey]
      exact hc.once key
    · subst hkey
      exact event row h
    · exact hc.events key row ((he key hkey).symm.trans h)
    · subst hkey
      exact quarantine row h
    · exact hc.quarantine key row ((hq key hkey).symm.trans h)
  events     := by
    intro key row h
    by_cases hkey : key = k
    case pos =>
      subst hkey
      exact absurd ((settled_eq_none.mp hn).left.symm.trans h) (by simp)
    case neg => rw [he key hkey, h]
  quarantine := by
    intro key row h
    by_cases hkey : key = k
    case pos =>
      subst hkey
      exact absurd ((settled_eq_none.mp hn).right.symm.trans h) (by simp)
    case neg => rw [hq key hkey, h]
  new        := by simpa using hk
  old        := by
    intro key w h
    by_cases hkey : key = k
    case pos =>
      subst hkey
      obtain rfl : v = w := Option.some.inj (hk.symm.trans h)
      exact .inr (by simp)
    case neg =>
      rw [Catalog.settled, he key hkey, hq key hkey] at h
      exact .inl h
  batches    := hb
  watermarks := hw

theorem Inserts.insertEvent {inserted : Bool} (hf : Formed b.scope e) (h : c.insertEvent b e = .ok (inserted, c₁)) :
    Inserts c c₁ [((b.scope, e.sequence), e.settled)] := by
  unfold Catalog.insertEvent at h
  split at h
  case h_1 found hs =>
    split at h
    case isFalse    => cases h
    case isTrue heq =>
      cases h
      exact .again (heq ▸ hs)
  case h_2 hn =>
    extract_lets held at h
    split at h
    case isTrue  => cases h
    case isFalse =>
      cases h
      have hq := (settled_eq_none.mp hn).right
      refine .row hn (settled_event (by simp)) (fun key hkey => Finmap.lookup_insert_of_ne _ hkey) (fun _ _ => rfl)
        (.inr hq) (fun row hr => ?_) (fun row hr => absurd (hq.symm.trans hr) (by simp)) rfl rfl
      obtain rfl : e = row := by simpa using hr
      exact ⟨rfl, hf⟩

theorem Inserts.insertQuarantine (hp : 1 ≤ item.sequence) (h : c.insertQuarantine b item = .ok c₁) :
    Inserts c c₁ [((b.scope, item.sequence), item.settled)] := by
  unfold Catalog.insertQuarantine at h
  split at h
  case h_1 found hs =>
    split at h
    case isFalse    => cases h
    case isTrue heq =>
      cases h
      exact .again (heq ▸ hs)
  case h_2 hn =>
    cases h
    have he := (settled_eq_none.mp hn).left
    refine .row hn (settled_quarantine he (by simp)) (fun _ _ => rfl) (fun key hkey => Finmap.lookup_insert_of_ne _ hkey)
      (.inl he) (fun row hr => absurd (he.symm.trans hr) (by simp)) (fun row hr => ?_) rfl rfl
    obtain rfl : item = row := by simpa using hr
    exact ⟨rfl, hp⟩

theorem Inserts.insertEvents {es : List StoredEvent} {ids : List Content} (hc : Rows c)
    (hf : ∀ e ∈ es, Formed b.scope e) (h : insertEvents b c es = .ok (ids, c₁)) :
    Inserts c c₁ (es.map fun e => ((b.scope, e.sequence), e.settled)) := by
  induction es generalizing c ids
  case nil =>
    cases h
    exact .refl
  case cons e es hi =>
    simp only [Catalog.insertEvents, bind, Except.bind] at h
    split at h
    case h_1 => cases h
    case h_2 r hr =>
      obtain ⟨inserted, c₂⟩ := r
      have first : Inserts c c₂ _ := .insertEvent (hf e List.mem_cons_self) hr
      split at h
      case h_1 => cases h
      case h_2 r hr' =>
        obtain ⟨rest, c₃⟩ := r
        cases h
        exact .append hc first (hi (first.rows hc) (fun e he => hf e (List.mem_cons_of_mem _ he)) hr')

theorem Inserts.insertQuarantines {items : List Rejection} (hc : Rows c) (hp : ∀ item ∈ items, 1 ≤ item.sequence)
    (h : insertQuarantines b c items = .ok c₁) :
    Inserts c c₁ (items.map fun item => ((b.scope, item.sequence), item.settled)) := by
  induction items generalizing c
  case nil =>
    cases h
    exact .refl
  case cons item items hi =>
    simp only [Catalog.insertQuarantines, bind, Except.bind] at h
    split at h
    case h_1 => cases h
    case h_2 c₂ hr =>
      have first : Inserts c c₂ _ := .insertQuarantine (hp item List.mem_cons_self) hr
      exact .append hc first (hi (first.rows hc) (fun item he => hp item (List.mem_cons_of_mem _ he)) h)

section Watermark

variable {scope : Scope} {n current : ℤ} {S : Finset ℤ}

theorem mem_sequences : n ∈ c.sequences scope ↔ (c.settled (scope, n)).isSome := by
  rw [sequences, Finset.mem_image]
  constructor
  case mp =>
    rintro ⟨⟨_, _⟩, hk, rfl⟩
    obtain ⟨hmem, rfl⟩ := Finset.mem_filter.mp hk
    simp only [Finset.mem_union, Finmap.mem_keys, ← Finmap.lookup_isSome] at hmem
    simpa [settled, Option.isSome_or] using hmem
  case mpr =>
    intro h
    refine ⟨(scope, n), Finset.mem_filter.mpr ⟨?_, rfl⟩, rfl⟩
    simp only [Finset.mem_union, Finmap.mem_keys, ← Finmap.lookup_isSome]
    simpa [settled, Option.isSome_or] using h

-- The sequences after which one is missing.
def gaps (S : Finset ℤ) (current : ℤ) : Finset ℤ :=
  (insert current (S.filter (current < ·))).filter (· + 1 ∉ S)

theorem mem_gaps : n ∈ gaps S current ↔ (n = current ∨ n ∈ S ∧ current < n) ∧ n + 1 ∉ S := by
  simp [gaps]

theorem gaps_nonempty (S : Finset ℤ) (current : ℤ) : (gaps S current).Nonempty := by
  obtain ⟨m, hm, hmax⟩ := Finset.exists_max_image (insert current (S.filter (current < ·))) id ⟨current, by simp⟩
  refine ⟨m, mem_gaps.mpr ⟨by simpa using hm, fun hs => ?_⟩⟩
  have hle : current ≤ m := hmax current (by simp)
  have hnext := hmax (m + 1) (by simp [hs]; omega)
  simp only [id] at hnext
  omega

-- Up to the first gap nothing is missing.
theorem no_gap_below {t : ℤ} (ht : ∀ g ∈ gaps S current, t ≤ g) (k : ℕ) (hk : current + (k + 1) ≤ t) :
    current + (k + 1) ∈ S := by
  induction k
  case zero =>
    by_contra hn
    have hg := ht current (mem_gaps.mpr ⟨.inl rfl, by simpa using hn⟩)
    omega
  case succ k hi =>
    by_contra hn
    have hmem := hi (by push_cast at hk; omega)
    have hg := ht (current + (k + 1)) (mem_gaps.mpr ⟨.inr ⟨hmem, by omega⟩, by push_cast at hn; rwa [add_assoc]⟩)
    push_cast at hk
    omega

-- The sequences 1 to `n` are settled.
def Through (c : Catalog) (scope : Scope) (n : ℤ) : Prop :=
  0 ≤ n ∧ ∀ i, 1 ≤ i → i ≤ n → (c.settled (scope, i)).isSome

theorem contiguous_greatest (h : Through c scope current) :
    IsGreatest {n | Through c scope n} (c.contiguous scope current) ∧ current ≤ c.contiguous scope current := by
  obtain ⟨t, ht⟩ := Finset.min_of_nonempty (gaps_nonempty (c.sequences scope) current)
  have he : c.contiguous scope current = t := by
    change (gaps (c.sequences scope) current).min.untopD current = t
    rw [ht]
    rfl
  obtain ⟨hmem, hgap⟩ := mem_gaps.mp (Finset.mem_of_min ht)
  have hleast := fun g hg => Finset.min_le_of_eq (b := g) hg ht
  have hle : current ≤ t := by omega
  rw [he]
  refine ⟨⟨⟨h.left.trans hle, fun i hpos hit => ?_⟩, fun n hn => ?_⟩, hle⟩
  · by_cases hic : i ≤ current
    case pos => exact h.right i hpos hic
    case neg =>
      have hk := no_gap_below hleast (i - current - 1).toNat (by omega)
      rw [← mem_sequences]
      rwa [show current + (((i - current - 1).toNat : ℤ) + 1) = i by omega] at hk
  · by_contra hlt
    rw [not_le] at hlt
    exact hgap (mem_sequences.mpr (hn.right (t + 1) (by have := h.left; omega) (by omega)))

end Watermark

end Catalog

end Ingest

namespace Ingest

open JsonValue Catalog

variable {q q' event event' : JsonValue} {key : String}

def scopeOf (q : JsonValue) : Scope :=
  (prepare q).scope

-- What a request makes of an event, as an event or as one for quarantine.
def settlement (q event : JsonValue) : Settlement :=
  ((scopeOf q, number event "sequence"), match recordError (event.get? "record") with
    | none        => .event (eventIdentity q event) ((event.get? "record").elim (content (.scalar .null)) content)
      (textAt event "project_id")
    | some reason => .quarantine (eventIdentity q event) reason)

def settles (q : JsonValue) : List Settlement :=
  (eventsOf q).map (settlement q)

section Content

-- Requests of the same content settle the same.

theorem text_congr {x y : JsonValue} (h : content x = content y) : text? x = text? y := by
  have ha := content_eq_iff.mp h
  cases x <;> cases y <;> first | rfl | (simp [alike] at ha; done) | skip
  case scalar.scalar a b =>
    rw [content_scalar h]

theorem int_congr {x y : JsonValue} (h : content x = content y) : int? x = int? y := by
  have ha := content_eq_iff.mp h
  cases x <;> cases y <;> first | rfl | (simp [alike] at ha; done) | skip
  case scalar.scalar a b =>
    rw [content_scalar h]

-- What is read of a field.
theorem get_congr {α : Type} {f : JsonValue → Option α} (hf : ∀ x y, content x = content y → f x = f y)
    (h : content q = content q') : (q.get? key).bind f = (q'.get? key).bind f := by
  have hg := content_get key h
  cases hx : q.get? key <;> cases hy : q'.get? key <;> simp only [hx, hy, Option.map_some, Option.map_none] at hg
  case none.none => rfl
  case some.some => exact hf _ _ (Option.some.inj hg)
  all_goals cases hg

theorem textAt_congr (h : content q = content q') : textAt q key = textAt q' key :=
  get_congr (fun _ _ => text_congr) h

theorem number_congr (h : content event = content event') : number event key = number event' key :=
  congrArg (Option.getD · 0) (get_congr (fun _ _ => int_congr) h)

theorem field_congr (h : content q = content q') : field q key = field q' key :=
  congrArg (Option.getD · "") (textAt_congr h)

theorem identity_congr (h : content q = content q') (he : content event = content event') :
    eventIdentity q event = eventIdentity q' event' := by
  unfold eventIdentity
  rw [field_congr h, field_congr h, number_congr he, number_congr he, number_congr he]

theorem recordError_congr {r r' : Option JsonValue} (h : r.map content = r'.map content) : recordError r = recordError r' := by
  cases r <;> cases r' <;> simp only [Option.map_some, Option.map_none] at h
  case none.none => rfl
  case some.some x y =>
    have hxy := Option.some.inj h
    have ha := content_eq_iff.mp hxy
    have hkind : textAt x "kind" = textAt y "kind" := textAt_congr hxy
    cases x <;> cases y <;> first | rfl | (simp [alike] at ha; done) | skip
    case object.object => simp only [recordError, hkind]
  all_goals cases h

theorem elim_content (r : Option JsonValue) (d : Content) : r.elim d content = (r.map content).getD d := by
  cases r <;> rfl

theorem settlement_congr (h : content q = content q') (he : content event = content event') :
    settlement q event = settlement q' event' := by
  have hg := content_get "record" he
  have hscope : scopeOf q = scopeOf q' := by
    simp only [scopeOf, prepare, BatchCommit.scope, field_congr h]
  have hrecord : (event.get? "record").elim (content (.scalar .null)) content =
      (event'.get? "record").elim (content (.scalar .null)) content := by
    rw [elim_content, elim_content, hg]
  unfold settlement
  rw [hscope, number_congr he, recordError_congr hg, identity_congr h he, textAt_congr he, hrecord]

theorem events_congr (h : content q = content q') :
    List.Forall₂ (fun x y => content x = content y) (eventsOf q) (eventsOf q') := by
  have hg := content_get "events" h
  unfold eventsOf
  cases hx : q.get? "events" <;> cases hy : q'.get? "events" <;> rw [hx, hy] at hg
  case none.none => exact .nil
  case some.some x y =>
    have hxy : content x = content y := Option.some.inj hg
    have ha := content_eq_iff.mp hxy
    cases x <;> cases y <;> first | exact .nil | (simp [alike] at ha; done) | skip
    case array.array => exact content_array.mp hxy
  all_goals cases hg

theorem settles_congr (h : content q = content q') : settles q = settles q' := by
  refine List.forall₂_eq_eq_eq ▸ ?_
  refine List.forall₂_map_left_iff.mpr (List.forall₂_map_right_iff.mpr ?_)
  exact (events_congr h).imp fun _ _ he => settlement_congr h he

end Content

section Prepare

variable {e : StoredEvent} {item : Rejection} {grant : Grant} {c c₁ : Catalog}

theorem stored_some (h : stored q event = some e) : ((scopeOf q, e.sequence), e.settled) = settlement q event ∧
    e.normalizedHash = content e.record ∧ e.sequence = number event "sequence" ∧ e.eventId = eventIdentity q event ∧
    e.byteStart = number event "byte_start" ∧ e.byteEnd = number event "byte_end" := by
  unfold stored at h
  split at h
  case h_2 => cases h
  case h_1 record hr hn =>
    cases h
    simp [settlement, hr, hr ▸ hn, StoredEvent.settled]

theorem rejected_some (h : rejected q event = some item) :
    ((scopeOf q, item.sequence), item.settled) = settlement q event ∧ item.sequence = number event "sequence" := by
  obtain ⟨reason, hr, rfl⟩ := Option.map_eq_some_iff.mp h
  simp [settlement, hr, Rejection.settled]

-- Every event is stored or rejected.
theorem stored_or_rejected (q event : JsonValue) : (∃ e, stored q event = some e) ∨ ∃ item, rejected q event = some item := by
  cases hn : recordError (event.get? "record") with
  | some reason => exact .inr ⟨_, by simp only [rejected, hn]; rfl⟩
  | none        =>
    cases hr : event.get? "record" with
    | none        => rw [hr] at hn; cases hn
    | some record => exact .inl ⟨_, by simp only [stored, hr, hr ▸ hn]; rfl⟩

theorem mem_settles {x : Settlement} :
    x ∈ ((prepare q).events.map fun e => (((prepare q).scope, e.sequence), e.settled)) ++
      (prepare q).rejected.map (fun item => (((prepare q).scope, item.sequence), item.settled)) ↔ x ∈ settles q := by
  simp only [prepare, settles, List.mem_append, List.mem_map, List.mem_filterMap]
  constructor
  case mp =>
    rintro (⟨e, ⟨event, hmem, he⟩, rfl⟩ | ⟨item, ⟨event, hmem, he⟩, rfl⟩)
    · exact ⟨event, hmem, (stored_some he).left.symm⟩
    · exact ⟨event, hmem, (rejected_some he).left.symm⟩
  case mpr =>
    rintro ⟨event, hmem, rfl⟩
    obtain ⟨e, he⟩ | ⟨item, he⟩ := stored_or_rejected q event
    · exact .inl ⟨e, ⟨event, hmem, he⟩, (stored_some he).left⟩
    · exact .inr ⟨item, ⟨event, hmem, he⟩, (rejected_some he).left⟩

theorem refuseIf_ok {p : Prop} [Decidable p] {error : Rejected} (h : refuseIf p error = .ok ()) : ¬p := by
  unfold refuseIf at h
  split at h
  case isTrue     => cases h
  case isFalse hp => exact hp

theorem ok_of_bind {ε α β : Type} {x : Except ε α} {f : α → Except ε β} {y : β} (h : x >>= f = .ok y) :
    ∃ a, x = .ok a ∧ f a = .ok y := by
  cases x with
  | error e => cases h
  | ok a    => exact ⟨a, rfl, h⟩

theorem checkEvent_ok {index : ℕ} (h : checkEvent index event = .ok ()) : 1 ≤ number event "sequence" := by
  unfold checkEvent at h
  cases hf : fieldsOf event with
  | none        => rw [hf] at h; cases h
  | some fields =>
    rw [hf] at h
    obtain ⟨_, _, h⟩ := ok_of_bind h
    obtain ⟨_, hs, _⟩ := ok_of_bind h
    obtain ⟨n, hn, hpos, _⟩ := not_not.mp (refuseIf_ok hs)
    rw [number, Option.mem_def.mp hn, Option.getD_some]
    exact hpos

theorem checkEventsFrom_ok {events : List JsonValue} {index : ℕ} (h : checkEventsFrom index events = .ok ()) :
    ∀ event ∈ events, 1 ≤ number event "sequence" := by
  induction events generalizing index
  case nil => simp
  case cons event events hi =>
    obtain ⟨_, hfirst, hrest⟩ := ok_of_bind h
    exact List.forall_mem_cons.mpr ⟨checkEvent_ok hfirst, hi hrest⟩

theorem check_ok (h : check grant q = .ok ()) : ∀ event ∈ eventsOf q, 1 ≤ number event "sequence" := by
  obtain ⟨_, _, h⟩ := ok_of_bind h
  obtain ⟨_, hevents, _⟩ := ok_of_bind h
  obtain ⟨_, hfrom, _⟩ := ok_of_bind hevents
  exact checkEventsFrom_ok hfrom

theorem formed_prepare (h : check grant q = .ok ()) : ∀ e ∈ (prepare q).events, Formed (prepare q).scope e := by
  intro e hm
  obtain ⟨event, hmem, hs⟩ := List.mem_filterMap.mp hm
  obtain ⟨_, hash, hseq, hid, hstart, hend⟩ := stored_some hs
  refine ⟨hash, ?_, hseq ▸ check_ok h event hmem⟩
  rw [hid, hseq, hstart, hend]
  rfl

-- What a commit of a checked request writes.
theorem prepared {ids : List Content} {c₂ : Catalog} (hc : Rows c) (h : check grant q = .ok ())
    (he : insertEvents (prepare q) c (prepare q).events = .ok (ids, c₁))
    (hq : insertQuarantines (prepare q) c₁ (prepare q).rejected = .ok c₂) : Inserts c c₂ (settles q) := by
  have positive (item : Rejection) (hm : item ∈ (prepare q).rejected) : 1 ≤ item.sequence := by
    obtain ⟨event, hmem, hr⟩ := List.mem_filterMap.mp hm
    rw [(rejected_some hr).right]
    exact check_ok h event hmem
  have first := Inserts.insertEvents hc (formed_prepare h) he
  have both := first.append hc (.insertQuarantines (first.rows hc) positive hq)
  exact ⟨⟨both.rows, both.events, both.quarantine, fun x hx => both.new x (mem_settles.mpr hx),
    fun key v hs => (both.old key v hs).imp_right mem_settles.mp⟩, both.batches, both.watermarks⟩

end Prepare

end Ingest
