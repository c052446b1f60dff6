import Agentihooks.Ingest.Theorems.Catalog

namespace Ingest

open JsonValue Catalog

section Sound

variable {c c' c₁ : Catalog} {q : JsonValue} {r : Request} {reply : Reply} {scope : Scope} {n : ℤ} {l : List Settlement}

def Applied (c : Catalog) (q : JsonValue) : Prop :=
  ∀ x ∈ settles q, c.settled x.1 = some x.2

-- What holds of every catalog. A batch that is stored has been applied.
structure Sound (c : Catalog) : Prop where
  rows    : Rows c
  through : ∀ scope, IsGreatest {n | Through c scope n} (c.watermark scope)
  batches : ∀ key batch, c.batches.lookup key = some batch → ∃ q, content q = batch.payloadDigest ∧ Applied c q

theorem settled_empty (key : Scope × ℤ) : empty.settled key = none := by
  simp [settled_eq_none, empty]

theorem Sound.empty : Sound empty where
  rows    := ⟨by simp [Ingest.empty], by simp [Ingest.empty], by simp [Ingest.empty]⟩
  through := by
    intro scope
    refine ⟨⟨le_rfl, fun i hpos hle => ?_⟩, fun n hn => ?_⟩
    · have : i ≤ 0 := hle
      omega
    · by_contra hlt
      have hpos : 0 < n := not_le.mp hlt
      have h := hn.right n hpos le_rfl
      rw [settled_empty] at h
      cases h
  batches := by simp [Ingest.empty]

-- A committed request: where its batch is recorded, and the new watermark.
def recorded (c : Catalog) (q : JsonValue) (result : Result) (ids : ℕ) : Catalog :=
  let b := prepare q
  let through := c.contiguous b.scope (c.watermark b.scope)
  { c with
    duplicates := Function.update c.duplicates b.accessDomain (c.duplicates b.accessDomain + ids)
    batches    := c.batches.insert (b.accessDomain, b.batchId) ⟨content q, result, b.schemaVersion⟩
    watermarks := c.watermarks.insert b.scope ⟨through, b.schemaVersion⟩ }

-- All that a request comes to.
inductive Ingested (c : Catalog) (r : Request) : Catalog → Reply → Prop
  | refused (error : Rejected) : Ingested c r c (.refused (content r.request) error)
  | raised : Ingested c r c .raised
  | replayed (stored : Batch) (hk : check r.grant r.request = .ok ())
    (hb : c.batches.lookup ((prepare r.request).accessDomain, (prepare r.request).batchId) = some stored)
    (hd : stored.payloadDigest = content r.request) :
    Ingested c r (c.count (prepare r.request).accessDomain stored.result.eventIds.length)
      (.committed ⟨stored.result, .replayed, c.watermark (scopeOf r.request)⟩)
  | applied (c₁ : Catalog) (ids : List Content) (hk : check r.grant r.request = .ok ())
    (hb : c.batches.lookup ((prepare r.request).accessDomain, (prepare r.request).batchId) = none)
    (he : Inserts c c₁ (settles r.request)) :
    Ingested c r (recorded c₁ r.request (result (prepare r.request) ids) ids.length)
      (.committed ⟨result (prepare r.request) ids, .committed, c₁.contiguous (scopeOf r.request)
        (c₁.watermark (scopeOf r.request))⟩)

theorem ingested (hc : Rows c) : Ingested c r (ingest c r).1 (ingest c r).2 := by
  unfold ingest
  split
  case h_1 error _ => exact .refused error
  case h_2 hk =>
    split
    case isTrue  => exact .refused catalogFailed
    case isFalse =>
      split
      case h_1 detail _ => exact .refused _
      case h_2          => exact .raised
      case h_3 answer c' hcommit =>
        unfold commit at hcommit
        split at hcommit
        case h_1 stored hb =>
          unfold replay at hcommit
          split at hcommit
          case isTrue     => cases hcommit
          case isFalse hd =>
            cases hcommit
            exact .replayed stored hk hb (not_not.mp hd)
        case h_2 hb =>
          obtain ⟨⟨ids, c₁⟩, hevents, hcommit⟩ := ok_of_bind hcommit
          obtain ⟨c₂, hitems, hcommit⟩ := ok_of_bind hcommit
          cases hcommit
          exact .applied c₂ ids hk hb (prepared hc hk hevents hitems)

theorem mem_settles_scope {x : Settlement} (h : x ∈ settles q) : x.1.1 = scopeOf q := by
  obtain ⟨event, _, rfl⟩ := List.mem_map.mp h
  rfl

-- Sources that a request is not for are settled as before.
theorem through_other (hc : Rows c) (he : Extends c c₁ (settles q)) (h : scope ≠ scopeOf q) :
    Through c₁ scope n ↔ Through c scope n := by
  refine and_congr_right fun _ => forall_congr' fun i => forall₂_congr fun _ _ => ?_
  rw [Option.isSome_iff_exists, Option.isSome_iff_exists]
  constructor
  case mp =>
    rintro ⟨v, hv⟩
    obtain hv | hmem := he.old _ v hv
    · exact ⟨v, hv⟩
    · exact absurd (mem_settles_scope hmem) h
  case mpr =>
    rintro ⟨v, hv⟩
    exact ⟨v, he.settled hc hv⟩

theorem Through.mono (hc : Rows c) (he : Extends c c₁ l) (h : Through c scope n) : Through c₁ scope n := by
  refine ⟨h.left, fun i hpos hle => ?_⟩
  obtain ⟨v, hv⟩ := Option.isSome_iff_exists.mp (h.right i hpos hle)
  rw [he.settled hc hv]
  rfl

theorem watermark_recorded {result : Result} {ids : ℕ} : (recorded c q result ids).watermark scope =
    if scope = scopeOf q then c.contiguous (scopeOf q) (c.watermark (scopeOf q)) else c.watermark scope := by
  split
  case isTrue h  => subst h; simp [watermark, recorded, scopeOf]
  case isFalse h => simp only [watermark, recorded, Finmap.lookup_insert_of_ne _ (show scope ≠ (prepare q).scope from h)]

theorem settled_recorded {result : Result} {ids : ℕ} {key : Scope × ℤ} :
    (recorded c q result ids).settled key = c.settled key :=
  rfl

-- The watermark of a request's source is the greatest again, and of no source is it less.
theorem Sound.through_recorded (hs : Sound c) (he : Inserts c c₁ (settles q)) {result : Result} {ids : ℕ} (scope : Scope) :
    IsGreatest {n | Through (recorded c₁ q result ids) scope n} ((recorded c₁ q result ids).watermark scope) ∧
      c.watermark scope ≤ (recorded c₁ q result ids).watermark scope := by
  have hw : c₁.watermark scope = c.watermark scope := by rw [watermark, watermark, he.watermarks]
  rw [watermark_recorded]
  change IsGreatest {n | Through c₁ scope n} _ ∧ _
  split
  case isTrue h =>
    subst h
    have old : Through c₁ (scopeOf q) (c₁.watermark (scopeOf q)) := by
      rw [hw]
      exact Through.mono hs.rows he.toExtends (hs.through _).left
    obtain ⟨hgreatest, hle⟩ := contiguous_greatest old
    exact ⟨hgreatest, hw ▸ hle⟩
  case isFalse h =>
    have heq : {n | Through c₁ scope n} = {n | Through c scope n} :=
      Set.ext fun n => through_other hs.rows he.toExtends h
    rw [heq, hw]
    exact ⟨hs.through scope, le_rfl⟩

theorem Sound.step (hs : Sound c) : Sound (step c r) := by
  have hi := ingested (r := r) hs.rows
  unfold Ingest.step
  generalize (ingest c r).1 = c' at hi ⊢
  generalize (ingest c r).2 = reply at hi
  cases hi with
  | refused                    => exact hs
  | raised                     => exact hs
  | replayed stored hk hb hd   => exact ⟨.congr (c := c) rfl rfl hs.rows, hs.through, hs.batches⟩
  | applied c₁ ids hk hb he    =>
    refine ⟨.congr (c := c₁) rfl rfl (he.rows hs.rows), fun scope => (hs.through_recorded he scope).left, fun key batch hkey => ?_⟩
    rw [recorded] at hkey
    by_cases hk : key = ((prepare r.request).accessDomain, (prepare r.request).batchId)
    case pos =>
      subst hk
      simp only [Finmap.lookup_insert, Option.some.injEq] at hkey
      exact ⟨r.request, hkey ▸ rfl, he.new⟩
    case neg =>
      simp only [Finmap.lookup_insert_of_ne _ hk, he.batches] at hkey
      obtain ⟨q, hq, happlied⟩ := hs.batches key batch hkey
      exact ⟨q, hq, fun x hx => he.settled hs.rows (happlied x hx)⟩

theorem Sound.run (hs : Sound c) (rs : List Request) : Sound (Run.run Ingest.step c rs) :=
  Run.invariant (fun _ _ h => h.step) hs

-- What a request does to the rows: those of before stay, and a new one is one of the request's.
theorem Sound.grows (hs : Sound c) : ∃ l, Extends c (Ingest.step c r) l ∧ ∀ x ∈ l, x ∈ settles r.request := by
  have hi := ingested (r := r) hs.rows
  unfold Ingest.step
  generalize (ingest c r).1 = c' at hi ⊢
  generalize (ingest c r).2 = reply at hi
  cases hi with
  | refused                  => exact ⟨[], Inserts.refl.toExtends, by simp⟩
  | raised                   => exact ⟨[], Inserts.refl.toExtends, by simp⟩
  | replayed stored hk hb hd => exact ⟨[], ⟨.congr (c := c) rfl rfl, fun _ _ => id, fun _ _ => id, by simp, fun _ _ => .inl⟩, by simp⟩
  | applied c₁ ids hk hb he  =>
    exact ⟨settles r.request, ⟨fun hc => .congr (c := c₁) rfl rfl (he.rows hc), he.events, he.quarantine, he.new, he.old⟩, fun _ => id⟩

end Sound

section Replay

variable {c d : Catalog} {r r' : Request} {rs rs' : List Request} {a : Answer}

def keyOf (q : JsonValue) : String × String :=
  ((prepare q).accessDomain, (prepare q).batchId)

theorem keyOf_congr {q q' : JsonValue} (h : content q = content q') : keyOf q = keyOf q' := by
  simp only [keyOf, prepare, field_congr h]

-- A batch that is stored stays so.
theorem batches_step (hs : Sound c) {key : String × String} {batch : Batch} (h : c.batches.lookup key = some batch) :
    (step c r).batches.lookup key = some batch := by
  have hi := ingested (r := r) hs.rows
  unfold step
  generalize (ingest c r).1 = c' at hi ⊢
  generalize (ingest c r).2 = reply at hi
  cases hi with
  | applied c₁ ids hk hb he =>
    have hne : key ≠ ((prepare r.request).accessDomain, (prepare r.request).batchId) := by
      rintro rfl
      exact absurd (hb.symm.trans h) (by simp)
    simp only [recorded]
    rw [Finmap.lookup_insert_of_ne _ hne, he.batches, h]
  | _ => exact h

theorem batches_run (hs : Sound c) {key : String × String} {batch : Batch} (h : c.batches.lookup key = some batch) :
    (Run.run step c rs).batches.lookup key = some batch := by
  induction rs generalizing c
  case nil     => exact h
  case cons hi => exact hi hs.step (batches_step hs h)

-- A committed batch is stored with its answer.
theorem stored_of_committed (hs : Sound c) (h : (ingest c r).2 = .committed a) :
    ∃ version, (step c r).batches.lookup (keyOf r.request) = some ⟨content r.request, a.result, version⟩ := by
  have hi := ingested (r := r) hs.rows
  unfold step
  rw [h] at hi
  generalize (ingest c r).1 = c' at hi ⊢
  cases hi with
  | replayed stored hk hb hd =>
    refine ⟨stored.schemaVersion, ?_⟩
    rw [← hd]
    exact hb
  | applied c₁ ids hk hb he  =>
    refine ⟨(prepare r.request).schemaVersion, ?_⟩
    simp only [recorded]
    exact Finmap.lookup_insert _

-- The same content again is answered as at first, and nothing is written but a count.
def Replays (c : Catalog) : Prop :=
  ∀ r a rs r', (ingest c r).2 = .committed a → content r'.request = content r.request →
    check r'.grant r'.request = .ok () → r'.fails = false →
    let d := Run.run step (step c r) rs
    step d r' = d.count (prepare r'.request).accessDomain a.result.eventIds.length ∧
      ∃ a', (ingest d r').2 = .committed a' ∧ a'.result = a.result ∧ a'.state = .replayed

theorem Sound.replays (hs : Sound c) : Replays c := by
  intro r a rs r' h hr hk hf d
  obtain ⟨version, hb⟩ := stored_of_committed hs h
  have hd : d.batches.lookup (keyOf r'.request) = some ⟨content r.request, a.result, version⟩ := by
    rw [keyOf_congr hr]
    exact batches_run hs.step hb
  have hcommit : d.commit (prepare r'.request) = .ok (⟨a.result, .replayed, d.watermark (prepare r'.request).scope⟩,
      d.count (prepare r'.request).accessDomain a.result.eventIds.length) := by
    unfold commit
    rw [show d.batches.lookup ((prepare r'.request).accessDomain, (prepare r'.request).batchId) = _ from hd]
    exact if_neg (not_not.mpr hr.symm)
  have hi : ingest d r' = (d.count (prepare r'.request).accessDomain a.result.eventIds.length,
      .committed ⟨a.result, .replayed, d.watermark (prepare r'.request).scope⟩) := by
    simp only [ingest, hk, hf, hcommit, Bool.false_eq_true, if_false]
  rw [Ingest.step, hi]
  exact ⟨rfl, _, rfl, rfl, rfl⟩

end Replay

section Order

variable {c d : Catalog} {r : Request} {rs rs' : List Request} {key : Scope × ℤ} {v : Settled}

def Accepts (c : Catalog) (r : Request) : Prop :=
  ∃ a, (ingest c r).2 = .committed a

theorem applied_of_accepts (hs : Sound c) (h : Accepts c r) : Applied (step c r) r.request := by
  obtain ⟨a, h⟩ := h
  have hi := ingested (r := r) hs.rows
  unfold step
  rw [h] at hi
  generalize (ingest c r).1 = c' at hi ⊢
  cases hi with
  | replayed stored hk hb hd =>
    obtain ⟨q, hq, happlied⟩ := hs.batches _ stored hb
    exact fun x hx => happlied x (settles_congr (hq.trans hd) ▸ hx)
  | applied c₁ ids hk hb he  => exact he.new

theorem settled_step (hs : Sound c) (h : c.settled key = some v) : (step c r).settled key = some v := by
  obtain ⟨l, he, _⟩ := hs.grows (r := r)
  exact he.settled hs.rows h

-- After accepted requests a sequence is settled as it was, or as one of them has it.
theorem settled_run (hs : Sound c) (h : Run.Along step Accepts c rs) : (Run.run step c rs).settled key = some v ↔
    c.settled key = some v ∨ ∃ r ∈ rs, (key, v) ∈ settles r.request := by
  induction rs generalizing c
  case nil          => simp
  case cons r rs hi =>
    rw [Run.run_cons, hi hs.step h.right, List.exists_mem_cons_iff, ← or_assoc]
    refine or_congr_left ⟨fun hv => ?_, fun hv => ?_⟩
    · obtain ⟨l, he, hl⟩ := hs.grows (r := r)
      exact (he.old key v hv).imp_right fun hm => hl _ hm
    · obtain hv | hv := hv
      · exact settled_step hs hv
      · exact applied_of_accepts hs h.left _ hv

-- The same row but for the order of the fields in its record.
structure SameRow (x y : StoredEvent) : Prop where
  eventId   : x.eventId = y.eventId
  sequence  : x.sequence = y.sequence
  byteStart : x.byteStart = y.byteStart
  byteEnd   : x.byteEnd = y.byteEnd
  projectId : x.projectId = y.projectId
  hash      : x.normalizedHash = y.normalizedHash
  record    : content x.record = content y.record

theorem SameRow.of_settled {x y : StoredEvent} {scope : Scope} (hx : Formed scope x) (hy : Formed scope y)
    (hs : x.sequence = y.sequence) (h : x.settled = y.settled) : SameRow x y := by
  simp only [StoredEvent.settled, Settled.event.injEq] at h
  obtain ⟨hid, hash, hproject⟩ := h
  have harray := hid
  rw [hx.identity, hy.identity, content_array] at harray
  simp only [List.forall₂_cons, List.forall₂_nil_right_iff, and_true] at harray
  obtain ⟨_, _, _, hstart, hend⟩ := harray
  refine ⟨hid, hs, ?_, ?_, hproject, hash, hx.hash.symm.trans (hash.trans hy.hash)⟩
  · simpa using content_scalar hstart
  · simpa using content_scalar hend

-- Catalogs with the same settled sequences have the same rows.
structure SameRows (c d : Catalog) : Prop where
  events     : ∀ key, Option.Rel SameRow (c.events.lookup key) (d.events.lookup key)
  quarantine : c.quarantine = d.quarantine
  watermarks : ∀ scope, c.watermark scope = d.watermark scope

theorem event_of_settled (h : ∀ key, c.settled key = d.settled key) {x : StoredEvent}
    (hx : c.events.lookup key = some x) : ∃ y, d.events.lookup key = some y ∧ y.settled = x.settled := by
  obtain ⟨y, hy, he⟩ | ⟨y, hy, he⟩ := settled_cases ((h key).symm.trans (settled_event hx))
  · exact ⟨y, hy, he⟩
  · cases he

theorem quarantine_of_settled (hc : Rows c) (hd : Rows d) (h : ∀ key, c.settled key = d.settled key) {x : Rejection}
    (hx : c.quarantine.lookup key = some x) : d.quarantine.lookup key = some x := by
  obtain ⟨y, hy, he⟩ | ⟨y, hy, he⟩ := settled_cases ((h key).symm.trans (hc.quarantined hx))
  case inl => cases he
  case inr =>
    have hsequence : y.sequence = x.sequence := (hd.quarantine key y hy).left.trans (hc.quarantine key x hx).left.symm
    obtain ⟨n, id, reason⟩ := x
    obtain ⟨n', id', reason'⟩ := y
    simp only [Rejection.settled, Settled.quarantine.injEq] at he
    obtain ⟨rfl, rfl⟩ := he
    obtain rfl : n' = n := hsequence
    exact hy

theorem SameRows.of_settled (hc : Sound c) (hd : Sound d) (h : ∀ key, c.settled key = d.settled key) : SameRows c d where
  events     := by
    intro key
    cases hx : c.events.lookup key with
    | none   =>
      cases hy : d.events.lookup key with
      | none   => exact .none
      | some y =>
        obtain ⟨x, hx', _⟩ := event_of_settled (fun key => (h key).symm) hy
        cases hx.symm.trans hx'
    | some x =>
      obtain ⟨y, hy, he⟩ := event_of_settled h hx
      obtain ⟨hsx, hfx⟩ := hc.rows.events key x hx
      obtain ⟨hsy, hfy⟩ := hd.rows.events key y hy
      rw [hy]
      exact .some (.of_settled hfx hfy (hsx.trans hsy.symm) he.symm)
  quarantine := Finmap.ext_lookup fun key => Option.ext fun x =>
    ⟨quarantine_of_settled hc.rows hd.rows h, quarantine_of_settled hd.rows hc.rows fun key => (h key).symm⟩
  watermarks := by
    intro scope
    have heq : {n | Through c scope n} = {n | Through d scope n} :=
      Set.ext fun n => and_congr_right fun _ => forall_congr' fun i => forall₂_congr fun _ _ => by rw [h]
    exact (hc.through scope).unique (heq ▸ hd.through scope)

-- Any two orders of the same accepted requests come to the same rows.
def Commutes (c : Catalog) : Prop :=
  ∀ rs rs', rs.Perm rs' → Run.Along step Accepts c rs → Run.Along step Accepts c rs' →
    SameRows (Run.run step c rs) (Run.run step c rs')

theorem Sound.commutes (hs : Sound c) : Commutes c := by
  intro rs rs' hp h h'
  refine .of_settled (hs.run rs) (hs.run rs') fun key => Option.ext fun v => ?_
  rw [settled_run hs h, settled_run hs h']
  simp only [hp.mem_iff]

end Order

section Kept

variable {c : Catalog} {r : Request}

-- What a request keeps: without a commit all of the catalog, and with one all that is settled.
structure Kept (c : Catalog) (r : Request) : Prop where
  refused    : ¬Accepts c r → step c r = c
  once       : ∀ key, c.events.lookup key = none ∨ c.quarantine.lookup key = none
  events     : ∀ key row, c.events.lookup key = some row → (step c r).events.lookup key = some row
  quarantine : ∀ key row, c.quarantine.lookup key = some row → (step c r).quarantine.lookup key = some row
  through    : ∀ scope, IsGreatest {n | Through c scope n} (c.watermark scope)
  grows      : ∀ scope, c.watermark scope ≤ (step c r).watermark scope
  answered   : ∀ a, (ingest c r).2 = .committed a → a.durableThrough = (step c r).watermark (scopeOf r.request)

theorem step_of_not_accepts (hs : Sound c) (h : ¬Accepts c r) : step c r = c := by
  have hi := ingested (r := r) hs.rows
  unfold Accepts at h
  unfold step
  generalize (ingest c r).1 = c' at hi ⊢
  generalize (ingest c r).2 = reply at hi h
  cases hi with
  | refused  => rfl
  | raised   => rfl
  | replayed => exact absurd ⟨_, rfl⟩ h
  | applied  => exact absurd ⟨_, rfl⟩ h

theorem watermark_step (hs : Sound c) (scope : Scope) : c.watermark scope ≤ (step c r).watermark scope := by
  have hi := ingested (r := r) hs.rows
  unfold step
  generalize (ingest c r).1 = c' at hi ⊢
  generalize (ingest c r).2 = reply at hi
  cases hi with
  | applied c₁ ids hk hb he => exact (hs.through_recorded he scope).right
  | _                       => exact le_rfl

theorem answered_step (hs : Sound c) {a : Answer} (h : (ingest c r).2 = .committed a) :
    a.durableThrough = (step c r).watermark (scopeOf r.request) := by
  have hi := ingested (r := r) hs.rows
  unfold step
  rw [h] at hi
  generalize (ingest c r).1 = c' at hi ⊢
  cases hi with
  | replayed stored hk hb hd => rfl
  | applied c₁ ids hk hb he  => rw [watermark_recorded, if_pos rfl]

theorem Sound.kept (hs : Sound c) : Kept c r := by
  obtain ⟨l, he, _⟩ := hs.grows (r := r)
  exact {
    refused    := step_of_not_accepts hs
    once       := hs.rows.once
    events     := he.events
    quarantine := he.quarantine
    through    := hs.through
    grows      := watermark_step hs
    answered   := fun _ => answered_step hs }

theorem ingest_run (rs : List Request) :
    let c := Run.run step empty rs
    (∀ r, Kept c r) ∧ Replays c ∧ Commutes c := by
  have hs := Sound.empty.run rs
  exact ⟨fun _ => hs.kept, hs.replays, hs.commutes⟩

end Kept

end Ingest
