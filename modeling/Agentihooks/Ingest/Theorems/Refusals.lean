import Agentihooks.Ingest.Theorems.Ingest

-- Why a commit is refused, and that a request that was refused once is always refused.

namespace Ingest

open JsonValue Catalog

namespace Catalog

variable {c c₁ c₂ : Catalog} {b : BatchCommit} {e : StoredEvent} {item : Rejection} {key : Scope × ℤ} {f : Failure}

-- Every id that has a provenance is that of an event.
def Provenanced (c : Catalog) : Prop :=
  ∀ key, (c.provenance.lookup key).isSome →
    ∃ place row, c.events.lookup place = some row ∧ place.1.accessDomain = key.1 ∧ row.eventId = key.2

theorem provenanced_insertEvent {inserted : Bool} (hp : Provenanced c)
    (h : c.insertEvent b e = .ok (inserted, c₁)) : Provenanced c₁ := by
  unfold Catalog.insertEvent at h
  split at h
  case h_1 =>
    split at h
    case isTrue  =>
      cases h
      exact hp
    case isFalse => cases h
  case h_2 hn =>
    extract_lets held at h
    split at h
    case isTrue  => cases h
    case isFalse =>
      cases h
      intro id hid
      by_cases he : id = (b.accessDomain, e.eventId)
      case pos =>
        subst he
        exact ⟨(b.scope, e.sequence), e, Finmap.lookup_insert _, rfl, rfl⟩
      case neg =>
        rw [Finmap.lookup_insert_of_ne _ he] at hid
        obtain ⟨place, row, hr, hd, hi⟩ := hp id hid
        refine ⟨place, row, ?_, hd, hi⟩
        rw [Finmap.lookup_insert_of_ne _ ?_, hr]
        rintro rfl
        rw [(settled_eq_none.mp hn).left] at hr
        cases hr

theorem provenanced_insertEvents {es : List StoredEvent} {ids : List Content} (hp : Provenanced c)
    (h : insertEvents b c es = .ok (ids, c₁)) : Provenanced c₁ := by
  induction es generalizing c ids
  case nil =>
    cases h
    exact hp
  case cons e es hi =>
    obtain ⟨⟨inserted, c₂⟩, he, h⟩ := ok_of_bind h
    obtain ⟨⟨rest, c₃⟩, hr, h⟩ := ok_of_bind h
    cases h
    exact hi (provenanced_insertEvent hp he) hr

theorem insertQuarantine_events (h : c.insertQuarantine b item = .ok c₁) :
    c₁.events = c.events ∧ c₁.provenance = c.provenance := by
  unfold Catalog.insertQuarantine at h
  split at h
  case h_1 =>
    split at h
    case isTrue  =>
      cases h
      exact ⟨rfl, rfl⟩
    case isFalse => cases h
  case h_2 =>
    cases h
    exact ⟨rfl, rfl⟩

theorem provenanced_insertQuarantines {items : List Rejection} (hp : Provenanced c)
    (h : insertQuarantines b c items = .ok c₁) : Provenanced c₁ := by
  induction items generalizing c
  case nil =>
    cases h
    exact hp
  case cons item items hi =>
    obtain ⟨c₂, hq, h⟩ := ok_of_bind h
    obtain ⟨he, hv⟩ := insertQuarantine_events hq
    exact hi (by rw [Provenanced, he, hv]; exact hp) h

-- An event that is in no other place is never one that the tables have already.
theorem insertEvent_ne_integrity (hc : Rows c) (hp : Provenanced c) (hf : Formed b.scope e) :
    c.insertEvent b e ≠ .error .integrity := by
  unfold Catalog.insertEvent
  split
  case h_1 => split <;> simp [differs]
  case h_2 hn =>
    extract_lets held
    split
    case isFalse => simp
    case isTrue h =>
      have hh : ∃ place row, c.events.lookup place = some row ∧ place.1.accessDomain = b.accessDomain ∧
          row.eventId = e.eventId := by
        obtain ⟨place, row, hr, hd, hi⟩ | hs := h
        · exact ⟨place, row, hr, hd, hi⟩
        · exact hp _ hs
      obtain ⟨place, row, hr, hd, hi⟩ := hh
      obtain ⟨hs, hrow⟩ := hc.events place row hr
      rw [hrow.identity, hf.identity, content_array] at hi
      simp only [List.forall₂_cons, List.forall₂_nil_right_iff] at hi
      obtain ⟨hu, hg, hn', -⟩ := hi
      have hplace : place = (b.scope, e.sequence) := by
        obtain ⟨⟨domain, uid, gen⟩, n⟩ := place
        simp only [BatchCommit.scope] at *
        have hu := content_scalar hu
        have hg := content_scalar hg
        have hn' := content_scalar hn'
        simp only [JsonScalar.str.injEq, JsonScalar.int.injEq] at hu hg hn'
        simp [hu, hg, hd, ← hs, hn']
      rw [hplace, (settled_eq_none.mp hn).left] at hr
      cases hr

-- An insertion settles its own sequence only, and refuses what is settled otherwise.
theorem insertEvent_settled {inserted : Bool} (h : c.insertEvent b e = .ok (inserted, c₁))
    (hk : key ≠ (b.scope, e.sequence)) : c₁.settled key = c.settled key := by
  unfold Catalog.insertEvent at h
  split at h
  case h_1 =>
    split at h
    case isTrue  =>
      cases h
      rfl
    case isFalse => cases h
  case h_2 =>
    extract_lets held at h
    split at h
    case isTrue  => cases h
    case isFalse =>
      cases h
      simp only [settled]
      rw [Finmap.lookup_insert_of_ne _ hk]

theorem insertEvents_settled {es : List StoredEvent} {ids : List Content} (h : insertEvents b c es = .ok (ids, c₁))
    (hk : ∀ e ∈ es, key ≠ (b.scope, e.sequence)) : c₁.settled key = c.settled key := by
  induction es generalizing c ids
  case nil =>
    cases h
    rfl
  case cons e es hi =>
    obtain ⟨⟨inserted, c₂⟩, he, h⟩ := ok_of_bind h
    obtain ⟨⟨rest, c₃⟩, hr, h⟩ := ok_of_bind h
    cases h
    rw [hi hr fun e hm => hk e (List.mem_cons_of_mem _ hm), insertEvent_settled he (hk e List.mem_cons_self)]

theorem insertQuarantine_settled (h : c.insertQuarantine b item = .ok c₁) (hk : key ≠ (b.scope, item.sequence)) :
    c₁.settled key = c.settled key := by
  unfold Catalog.insertQuarantine at h
  split at h
  case h_1 =>
    split at h
    case isTrue  =>
      cases h
      rfl
    case isFalse => cases h
  case h_2 =>
    cases h
    simp only [settled]
    rw [Finmap.lookup_insert_of_ne _ hk]

theorem insertEvent_error {d : String} (h : c.insertEvent b e = .error (.conflict d)) :
    ∃ v, c.settled (b.scope, e.sequence) = some v ∧ v ≠ e.settled := by
  unfold Catalog.insertEvent at h
  split at h
  case h_1 found hs =>
    split at h
    case isTrue     => cases h
    case isFalse hn => exact ⟨found, hs, hn⟩
  case h_2 =>
    extract_lets held at h
    split at h <;> cases h

theorem insertQuarantine_error (h : c.insertQuarantine b item = .error f) :
    f = differs ∧ ∃ v, c.settled (b.scope, item.sequence) = some v ∧ v ≠ item.settled := by
  unfold Catalog.insertQuarantine at h
  split at h
  case h_1 found hs =>
    split at h
    case isTrue     => cases h
    case isFalse hn =>
      cases h
      exact ⟨rfl, found, hs, hn⟩
  case h_2 => cases h

theorem error_of_bind {ε α β : Type} {x : Except ε α} {g : α → Except ε β} {error : ε} (h : x >>= g = .error error) :
    x = .error error ∨ ∃ a, x = .ok a ∧ g a = .error error := by
  cases x with
  | error e =>
    cases h
    exact .inl rfl
  | ok a    => exact .inr ⟨a, rfl, h⟩

-- Of events of different sequences, one that is refused clashes with a row that was there before them all.
theorem insertEvents_error {es : List StoredEvent} (hc : Rows c) (hp : Provenanced c)
    (hf : ∀ e ∈ es, Formed b.scope e) (hn : (es.map StoredEvent.sequence).Nodup) (h : insertEvents b c es = .error f) :
    f ≠ .integrity ∧ ∃ e ∈ es, ∃ v, c.settled (b.scope, e.sequence) = some v ∧ v ≠ e.settled := by
  induction es generalizing c
  case nil => cases h
  case cons e es hi =>
    obtain ⟨hne, hn⟩ := List.nodup_cons.mp hn
    obtain he | ⟨⟨inserted, c₂⟩, he, h⟩ := error_of_bind h
    · have hfi : f ≠ .integrity := by
        rintro rfl
        exact insertEvent_ne_integrity hc hp (hf e List.mem_cons_self) he
      cases f with
      | integrity  => exact absurd rfl hfi
      | conflict d => exact ⟨hfi, e, List.mem_cons_self, insertEvent_error he⟩
    · obtain hr | ⟨⟨rest, c₃⟩, _, h⟩ := error_of_bind h
      · have hrows : Rows c₂ := (Inserts.insertEvent (hf e List.mem_cons_self) he).rows hc
        obtain ⟨hfi, x, hm, v, hs, hv⟩ := hi hrows (provenanced_insertEvent hp he)
          (fun e hm => hf e (List.mem_cons_of_mem _ hm)) hn hr
        refine ⟨hfi, x, List.mem_cons_of_mem _ hm, v, ?_, hv⟩
        rw [← insertEvent_settled he, hs]
        intro hk
        exact hne (List.mem_map.mpr ⟨x, hm, (Prod.mk.inj hk).right⟩)
      · cases h

theorem insertQuarantines_error {items : List Rejection} (hn : (items.map Rejection.sequence).Nodup)
    (h : insertQuarantines b c items = .error f) :
    f ≠ .integrity ∧ ∃ item ∈ items, ∃ v, c.settled (b.scope, item.sequence) = some v ∧ v ≠ item.settled := by
  induction items generalizing c
  case nil => cases h
  case cons item items hi =>
    obtain ⟨hne, hn⟩ := List.nodup_cons.mp hn
    obtain he | ⟨c₂, he, h⟩ := error_of_bind h
    · obtain ⟨rfl, hv⟩ := insertQuarantine_error he
      exact ⟨by simp [differs], item, List.mem_cons_self, hv⟩
    · obtain ⟨hfi, x, hm, v, hs, hv⟩ := hi hn h
      refine ⟨hfi, x, List.mem_cons_of_mem _ hm, v, ?_, hv⟩
      rw [← insertQuarantine_settled he, hs]
      intro hk
      exact hne (List.mem_map.mpr ⟨x, hm, (Prod.mk.inj hk).right⟩)

end Catalog

section Sequences

variable {q : JsonValue} {grant : Grant}

theorem intAt_number {event : JsonValue} {key : String} (h : 1 ≤ number event key) :
    intAt event key = some (number event key) := by
  rw [number] at h ⊢
  cases hi : intAt event key with
  | some n => rfl
  | none   =>
    rw [hi, Option.getD_none] at h
    omega

-- The sequences of a checked request are all different.
theorem nodup_numbers (h : check grant q = .ok ()) : ((eventsOf q).map (number · "sequence")).Nodup := by
  obtain ⟨_, _, h⟩ := ok_of_bind h
  obtain ⟨_, hevents, _⟩ := ok_of_bind h
  obtain ⟨_, hfrom, hn⟩ := ok_of_bind hevents
  have hn := not_not.mp (refuseIf_ok hn)
  have hpos := checkEventsFrom_ok hfrom
  refine (List.nodup_map_iff_inj_on (List.Nodup.of_map _ hn)).mpr fun x hx y hy he => ?_
  refine List.inj_on_of_nodup_map hn hx hy ?_
  exact (intAt_number (hpos x hx)).trans (he ▸ (intAt_number (hpos y hy)).symm)

theorem map_filterMap_sublist {α β γ : Type} {f : α → Option β} {g : β → γ} {k : α → γ}
    (h : ∀ a b, f a = some b → g b = k a) (l : List α) : ((l.filterMap f).map g).Sublist (l.map k) := by
  induction l
  case nil => simp
  case cons a l hi =>
    cases hf : f a with
    | none   => simpa [hf] using hi.trans (List.sublist_cons_self _ _)
    | some b => simpa [hf, h a b hf] using hi.cons_cons (k a)

theorem nodup_events (h : check grant q = .ok ()) : ((prepare q).events.map StoredEvent.sequence).Nodup :=
  (map_filterMap_sublist (fun _ _ hs => (stored_some hs).right.right.left) _).nodup (nodup_numbers h)

theorem nodup_rejected (h : check grant q = .ok ()) : ((prepare q).rejected.map Rejection.sequence).Nodup :=
  (map_filterMap_sublist (fun _ _ hr => (rejected_some hr).right) _).nodup (nodup_numbers h)

end Sequences

section Spares

variable {q : JsonValue} {grant : Grant} {α β : Type}

-- An error of a check does not say that the catalog is away.
def Spares (x : Except Rejected α) : Prop :=
  ∀ error, x = .error error → error.errorClass ≠ .dependencyUnavailable

theorem Spares.bind {x : Except Rejected α} {f : α → Except Rejected β} (hx : Spares x) (hf : ∀ a, Spares (f a)) :
    Spares (x >>= f) := by
  intro error h
  obtain hx' | ⟨a, _, hf'⟩ := error_of_bind h
  · exact hx error hx'
  · exact hf a error hf'

theorem spares_refuseIf {p : Prop} [Decidable p] {error : Rejected} (h : error.errorClass ≠ .dependencyUnavailable) :
    Spares (refuseIf p error) := by
  intro e he
  unfold refuseIf at he
  split at he
  case isTrue  =>
    cases he
    exact h
  case isFalse => cases he

theorem spares_invalid {p : Prop} [Decidable p] {detail : String} : Spares (refuseIf p (invalid detail)) :=
  spares_refuseIf (by simp [invalid])

theorem spares_pure {a : α} : Spares (pure a) := by
  intro e he
  cases he

theorem spares_throw {detail : String} : Spares (throw (invalid detail) : Except Rejected α) := by
  intro e he
  cases he
  simp [invalid]

theorem spares_forIn {l : List α} {b : β} {f : α → β → Except Rejected (ForInStep β)} (hf : ∀ a b, Spares (f a b)) :
    Spares (forIn l b f) := by
  induction l generalizing b
  case nil       => exact spares_pure
  case cons a l hi =>
    rw [List.forIn_cons]
    refine (hf a b).bind fun next => ?_
    cases next with
    | done b  => exact spares_pure
    | yield b => exact hi

theorem spares_checkEnvelope : Spares (checkEnvelope q) := by
  unfold checkEnvelope
  split
  case h_2 => exact spares_throw
  case h_1 =>
    refine spares_invalid.bind fun _ => spares_invalid.bind fun _ => .bind (spares_forIn fun _ _ => ?_) fun _ => spares_invalid
    exact spares_invalid.bind fun _ => spares_pure

theorem spares_checkEvent {index : ℕ} {event : JsonValue} : Spares (checkEvent index event) := by
  unfold checkEvent
  split
  case h_2 => exact spares_throw
  case h_1 =>
    refine spares_invalid.bind fun _ => spares_invalid.bind fun _ => ?_
    exact spares_invalid.bind fun _ => spares_invalid

theorem spares_checkEventsFrom {events : List JsonValue} {index : ℕ} : Spares (checkEventsFrom index events) := by
  induction events generalizing index
  case nil     => exact spares_pure
  case cons hi => exact spares_checkEvent.bind fun _ => hi

theorem check_spares : Spares (check grant q) := by
  refine spares_checkEnvelope.bind fun _ => .bind (.bind spares_checkEventsFrom fun _ => spares_invalid) fun _ => ?_
  exact .bind (spares_refuseIf (by simp)) fun _ => spares_refuseIf (by simp)

end Spares

section Clash

variable {c : Catalog} {r : Request} {q : JsonValue} {grant : Grant}

-- A request that the catalog has no place for: its batch was committed with other content, or one of its sequences is
-- settled otherwise.
def Clash (c : Catalog) (q : JsonValue) : Prop :=
  (∃ batch, c.batches.lookup (keyOf q) = some batch ∧ batch.payloadDigest ≠ content q) ∨
    ∃ x ∈ settles q, ∃ v, c.settled x.1 = some v ∧ v ≠ x.2

theorem Clash.step (hs : Sound c) (h : Clash c q) : Clash (step c r) q := by
  obtain ⟨batch, hb, hd⟩ | ⟨x, hx, v, hv, hne⟩ := h
  · exact .inl ⟨batch, batches_step hs hb, hd⟩
  · exact .inr ⟨x, hx, v, settled_step hs hv, hne⟩

theorem not_clash_of_accepts (hs : Sound c) (h : Accepts c r) : ¬ Clash c r.request := by
  intro hc
  obtain ⟨batch, hb, hd⟩ | ⟨x, hx, v, hv, hne⟩ := hc.step hs (r := r)
  · obtain ⟨a, h⟩ := h
    obtain ⟨version, hstored⟩ := stored_of_committed hs h
    obtain rfl := Option.some.inj (hb.symm.trans hstored)
    exact hd rfl
  · exact hne (Option.some.inj (hv.symm.trans (applied_of_accepts hs h x hx)))

-- An event and one for quarantine are of different sequences.
theorem sequence_ne (h : check grant q = .ok ()) {e : StoredEvent} {item : Rejection} (he : e ∈ (prepare q).events)
    (hi : item ∈ (prepare q).rejected) : item.sequence ≠ e.sequence := by
  obtain ⟨event, hm, hs⟩ := List.mem_filterMap.mp he
  obtain ⟨other, ho, hr⟩ := List.mem_filterMap.mp hi
  intro hn
  rw [(rejected_some hr).right, (stored_some hs).right.right.left] at hn
  obtain rfl := List.inj_on_of_nodup_map (nodup_numbers h) ho hm hn
  obtain ⟨reason, hreason, -⟩ := Option.map_eq_some_iff.mp hr
  simp [stored, hreason] at hs

theorem commit_error (hs : Sound c) (hp : Provenanced c) (hk : check grant q = .ok ()) {f : Failure}
    (h : c.commit (prepare q) = .error f) : f ≠ .integrity ∧ Clash c q := by
  unfold Catalog.commit at h
  split at h
  case h_1 stored hb =>
    unfold Catalog.replay at h
    split at h
    case isTrue hd =>
      cases h
      exact ⟨by simp, .inl ⟨stored, hb, hd⟩⟩
    case isFalse => cases h
  case h_2 =>
    obtain he | ⟨⟨ids, c₁⟩, he, h⟩ := error_of_bind h
    · obtain ⟨hf, e, hm, v, hv, hne⟩ := insertEvents_error hs.rows hp (formed_prepare hk) (nodup_events hk) he
      refine ⟨hf, .inr ⟨_, mem_settles.mp (List.mem_append_left _ (List.mem_map_of_mem hm)), v, hv, hne⟩⟩
    · obtain hq | ⟨c₂, hq, h⟩ := error_of_bind h
      · obtain ⟨hf, item, hm, v, hv, hne⟩ := insertQuarantines_error (nodup_rejected hk) hq
        refine ⟨hf, .inr ⟨_, mem_settles.mp (List.mem_append_right _ (List.mem_map_of_mem hm)), v, ?_, hne⟩⟩
        rw [← insertEvents_settled he, hv]
        intro e he hkey
        exact sequence_ne hk he hm (Prod.mk.inj hkey).right
      · cases h

-- All that becomes of a request: whether it is refused depends on its check, on the outage and on what it clashes with.
inductive Answered (c : Catalog) (r : Request) : Prop
  | invalid (error : Rejected) (hk : check r.grant r.request = .error error)
    (h : ingest c r = (c, .refused (content r.request) error))
  | failed (hk : check r.grant r.request = .ok ()) (hf : r.fails = true)
    (h : ingest c r = (c, .refused (content r.request) catalogFailed))
  | clashed (detail : String) (hk : check r.grant r.request = .ok ()) (hf : r.fails = false)
    (hc : Clash c r.request)
    (h : ingest c r = (c, .refused (content r.request) ⟨.revisionConflict, detail, .never⟩))
  | committed (a : Answer) (hk : check r.grant r.request = .ok ()) (hf : r.fails = false)
    (hc : ¬ Clash c r.request) (h : (ingest c r).2 = .committed a)

theorem answered (hs : Sound c) (hp : Provenanced c) : Answered c r := by
  cases hk : check r.grant r.request with
  | error error => exact .invalid error hk (by simp [ingest, hk])
  | ok _ =>
    cases hf : r.fails with
    | true  => exact .failed hk hf (by simp [ingest, hk, hf])
    | false =>
      cases hcommit : c.commit (prepare r.request) with
      | error f =>
        obtain ⟨hi, hc⟩ := commit_error hs hp hk hcommit
        cases f with
        | integrity       => exact absurd rfl hi
        | conflict detail => exact .clashed detail hk hf hc (by simp [ingest, hk, hf, hcommit])
      | ok done =>
        have h : (ingest c r).2 = .committed done.1 := by simp [ingest, hk, hf, hcommit]
        exact .committed done.1 hk hf (not_clash_of_accepts hs ⟨_, h⟩) h

theorem provenanced_step (hp : Provenanced c) : Provenanced (step c r) := by
  rw [step, ingest]
  split
  case h_1 => exact hp
  case h_2 =>
    split
    case isTrue  => exact hp
    case isFalse =>
      split
      case h_1 => exact hp
      case h_2 => exact hp
      case h_3 a c' hcommit =>
        unfold Catalog.commit at hcommit
        split at hcommit
        case h_1 =>
          unfold Catalog.replay at hcommit
          split at hcommit
          case isTrue  => cases hcommit
          case isFalse =>
            cases hcommit
            exact hp
        case h_2 =>
          obtain ⟨⟨ids, c₁⟩, hevents, hcommit⟩ := ok_of_bind hcommit
          obtain ⟨c₂, hitems, hcommit⟩ := ok_of_bind hcommit
          cases hcommit
          have h₂ : Provenanced c₂ := provenanced_insertQuarantines (provenanced_insertEvents hp hevents) hitems
          exact h₂

end Clash

section Counted

variable {c c' c₁ : Catalog} {b : BatchCommit} {e : StoredEvent} {r : Request} {d : String → ℕ}

-- The same but for the counts of duplicates.
def Counted (c c' : Catalog) : Prop :=
  c' = { c with duplicates := c'.duplicates }

theorem Counted.refl : Counted c c :=
  rfl

theorem counted_iff : Counted c c' ↔ ∃ d, c' = { c with duplicates := d } := by
  constructor
  case mp => exact fun h => ⟨_, h⟩
  case mpr =>
    rintro ⟨d, rfl⟩
    rfl

theorem Counted.symm (h : Counted c c') : Counted c' c := by
  obtain ⟨d, rfl⟩ := counted_iff.mp h
  rfl

theorem Counted.trans (h : Counted c c') (h' : Counted c' c₁) : Counted c c₁ := by
  obtain ⟨d, rfl⟩ := counted_iff.mp h
  obtain ⟨d', rfl⟩ := counted_iff.mp h'
  rfl

-- The catalog with other counts.
def counting (d : String → ℕ) (c : Catalog) : Catalog :=
  { c with duplicates := d }

-- The rows are inserted whatever the counts are.
theorem insertEvent_counting : (counting d c).insertEvent b e = (c.insertEvent b e).map (Prod.map id (counting d)) := by
  have hs : (counting d c).settled = c.settled := rfl
  have he : (counting d c).events = c.events := rfl
  have hp : (counting d c).provenance = c.provenance := rfl
  cases h : c.settled (b.scope, e.sequence) with
  | some found =>
    simp only [insertEvent, hs, h]
    split <;> rfl
  | none       =>
    simp only [insertEvent, hs, he, hp, h]
    split <;> rfl

theorem insertQuarantine_counting {item : Rejection} :
    (counting d c).insertQuarantine b item = (c.insertQuarantine b item).map (counting d) := by
  have hs : (counting d c).settled = c.settled := rfl
  cases h : c.settled (b.scope, item.sequence) with
  | some found =>
    simp only [insertQuarantine, hs, h]
    split <;> rfl
  | none       =>
    simp only [insertQuarantine, hs, h]
    rfl

theorem insertEvents_counting {es : List StoredEvent} :
    insertEvents b (counting d c) es = (insertEvents b c es).map (Prod.map id (counting d)) := by
  induction es generalizing c
  case nil         => rfl
  case cons e es hi =>
    simp only [insertEvents, insertEvent_counting]
    cases c.insertEvent b e with
    | error f => rfl
    | ok done =>
      obtain ⟨inserted, c₁⟩ := done
      change (insertEvents b (counting d c₁) es >>= _) = _
      rw [hi]
      change _ = Except.map _ (insertEvents b c₁ es >>= _)
      cases insertEvents b c₁ es <;> rfl

theorem insertQuarantines_counting {items : List Rejection} :
    insertQuarantines b (counting d c) items = (insertQuarantines b c items).map (counting d) := by
  induction items generalizing c
  case nil            => rfl
  case cons item items hi =>
    simp only [insertQuarantines, insertQuarantine_counting]
    cases c.insertQuarantine b item with
    | error f => rfl
    | ok c₁   => exact hi

-- What a commit comes to in two catalogs that are the same but for the counts.
theorem commit_counting :
    (∃ f, c.commit b = .error f ∧ (counting d c).commit b = .error f) ∨
      ∃ a c₁ d₁, c.commit b = .ok (a, c₁) ∧ (counting d c).commit b = .ok (a, counting d₁ c₁) := by
  have hb : (counting d c).batches = c.batches := rfl
  unfold commit
  rw [hb]
  cases hl : c.batches.lookup (b.accessDomain, b.batchId) with
  | some stored =>
    simp only [replay]
    split
    · exact .inl ⟨_, rfl, rfl⟩
    · exact .inr ⟨_, _, _, rfl, rfl⟩
  | none =>
    simp only [Catalog.apply, insertEvents_counting]
    cases insertEvents b c b.events with
    | error f => exact .inl ⟨f, rfl, rfl⟩
    | ok done =>
      obtain ⟨ids, c₁⟩ := done
      change (∃ f, (insertQuarantines b c₁ b.rejected >>= _) = .error f ∧
        (insertQuarantines b (counting d c₁) b.rejected >>= _) = .error f) ∨ _
      rw [insertQuarantines_counting]
      change _ ∨ ∃ a c₂ d₁, (insertQuarantines b c₁ b.rejected >>= _) = .ok (a, c₂) ∧
        (insertQuarantines b (counting d c₁) b.rejected >>= _) = .ok (a, counting d₁ c₂)
      rw [insertQuarantines_counting]
      cases insertQuarantines b c₁ b.rejected with
      | error f => exact .inl ⟨f, rfl, rfl⟩
      | ok c₂   => exact .inr ⟨_, _, _, rfl, rfl⟩

theorem Counted.ingest (h : Counted c c') :
    Counted (Ingest.ingest c r).1 (Ingest.ingest c' r).1 ∧ (Ingest.ingest c r).2 = (Ingest.ingest c' r).2 := by
  obtain ⟨d, rfl⟩ := counted_iff.mp h
  change Counted _ (Ingest.ingest (counting d c) r).1 ∧ _ = (Ingest.ingest (counting d c) r).2
  unfold Ingest.ingest
  split
  case h_1 => exact ⟨rfl, rfl⟩
  case h_2 =>
    split
    case isTrue  => exact ⟨rfl, rfl⟩
    case isFalse =>
      obtain ⟨f, hc, hd⟩ | ⟨a, c₁, d₁, hc, hd⟩ := commit_counting (c := c) (d := d) (b := prepare r.request)
      · rw [hc, hd]
        cases f <;> exact ⟨rfl, rfl⟩
      · rw [hc, hd]
        exact ⟨rfl, rfl⟩

theorem Counted.clash (h : Counted c c') {q : JsonValue} : Clash c q ↔ Clash c' q := by
  obtain ⟨d, rfl⟩ := counted_iff.mp h
  rfl

theorem Sound.counted (hs : Sound c) (h : Counted c c') : Sound c' := by
  obtain ⟨d, rfl⟩ := counted_iff.mp h
  exact ⟨⟨hs.rows.once, hs.rows.events, hs.rows.quarantine⟩, hs.through, hs.batches⟩

theorem Catalog.Provenanced.counted (hp : Provenanced c) (h : Counted c c') : Provenanced c' := by
  obtain ⟨d, rfl⟩ := counted_iff.mp h
  exact hp

end Counted

end Ingest
