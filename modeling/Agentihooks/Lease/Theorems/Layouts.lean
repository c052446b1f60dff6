import Agentihooks.Lease.System
import Agentihooks.Fencing.Theorems.Records

-- What each operation makes of the lease and the epoch of the document it runs on.

namespace Lease

open Program Fencing

variable {d d' : Document} {c : History} {operation : Operation} {result : Option Lease}
variable {owner hostname : String} {now ttl tick : Int} {held : Lease} {α : Type}

-- The lease of a document, if it has one, is of the epoch of the document.
def Sound (d : Document) : Prop :=
  ∀ l, d.lease = some l → l.epoch = d.epoch

-- `d` records the lease and the epoch.
def Records (d : Document) (lease : Option Lease) (epoch : Int) : Prop :=
  d.fetch ⟨.scalar, .lease⟩ = some lease ∧ d.fetch ⟨.scalar, .epoch⟩ = some epoch

-- Two documents record the same lease, and the same epoch.
def SameLease (d d' : Document) : Prop :=
  d'.fetch ⟨.scalar, .lease⟩ = d.fetch ⟨.scalar, .lease⟩

def SameEpoch (d d' : Document) : Prop :=
  d'.fetch ⟨.scalar, .epoch⟩ = d.fetch ⟨.scalar, .epoch⟩

inductive Effect (d d' : Document) : Operation → Prop
  | refused {operation : Operation} (hl : SameLease d d') (he : SameEpoch d d') (hf : operation.fence = none) :
      Effect d d' operation
  | kept {owner hostname : String} {now ttl : Int} (current : Lease) (hc : live d.lease now = some current)
      (ho : current.owner = owner ∨ current.owner = hostname)
      (hr : Records d' (some ⟨owner, current.epoch, now + ttl⟩) current.epoch) :
      Effect d d' (.acquire owner hostname now ttl)
  | acquired {owner hostname : String} {now ttl : Int} (keeper : String) (hc : live d.lease now = none)
      (hr : Records d' (some ⟨keeper, d.epoch + 1, now + ttl⟩) (d.epoch + 1)) :
      Effect d d' (.acquire owner hostname now ttl)
  | transferred {owner : String} {sourceEpoch expectedEpoch now ttl : Int} (epoch : Int) (hn : d.epoch < epoch)
      (hr : Records d' (some ⟨owner, epoch, now + ttl⟩) epoch) :
      Effect d d' (.transfer owner sourceEpoch expectedEpoch now ttl)
  | extended {held : Lease} {now tick : Int} (recorded : Lease) (hc : d.lease = some recorded)
      (ho : recorded.owner = held.owner ∧ recorded.epoch = held.epoch)
      (hl : d'.fetch ⟨.scalar, .lease⟩ = some (some ⟨held.owner, held.epoch, now + 3 * tick⟩))
      (he : SameEpoch d d') : Effect d d' (.renew held now tick)
  | dropped {held : Lease} {now : Int} (recorded : Lease) (hc : d.lease = some recorded)
      (ho : recorded.owner = held.owner ∧ recorded.epoch = held.epoch)
      (hl : d'.fetch ⟨.scalar, .lease⟩ = some none) (he : SameEpoch d d') : Effect d d' (.release held now)
  | worked {held : Option Held} {now : Int} {work : Work} (hl : SameLease d d') (he : SameEpoch d d')
      (hh : ∀ h ∈ held, ∃ l, d.lease = some l ∧ l.epoch = h.epochOf) : Effect d d' (.fenced held now work)

-- The document after `_hold`.
def holding (d : Document) (held : Lease) : Document :=
  ((d.put .scalar .lease (some held)).put .scalar .epoch held.epoch).put .scalar .legacyOwner ""

theorem exec_hold (f : Lease → Change α) : (hold held >>= f).exec c d = (f held).exec c (holding d held) := by
  simp [hold, holding]

theorem exec_hold_done : (hold held).exec c d = .ok (held, holding d held) := by
  simp [hold, holding]

theorem records_holding : Records (holding d held) (some held) held.epoch := by
  simp [Records, holding, Sections.fetch]

theorem effect_acquire (h : (take owner hostname now ttl).exec c d = .ok (result, d')) :
    Effect d d' (.acquire owner hostname now ttl) := by
  simp only [take, Change.exec_lease, Change.exec_legacyOwner] at h
  cases hl : live d.lease now
  case some current =>
    simp only [hl, exec_ite, exec_hold] at h
    split at h
    case isTrue =>
      cases h
      exact .refused rfl rfl rfl
    case isFalse hn =>
      cases h
      refine .kept current hl ?_ records_holding
      rw [ne_eq, ne_eq, not_and_or, not_not, not_not] at hn
      exact hn
  case none =>
    simp only [hl, Change.exec_epoch, Change.exec_leaderChanges, exec_write, exec_hold] at h
    cases h
    exact .acquired _ hl records_holding

theorem effect_transfer {sourceEpoch expectedEpoch : Int} {l : Lease}
    (h : (move owner sourceEpoch expectedEpoch now ttl).exec c d = .ok (l, d')) :
    Effect d d' (.transfer owner sourceEpoch expectedEpoch now ttl) := by
  simp only [move, Change.exec_lease, Change.exec_legacyOwner, Change.exec_epoch, exec_ensure, guard_ok] at h
  obtain ⟨_, _, h⟩ := h
  rw [exec_hold_done] at h
  cases h
  exact .transferred _ (by omega) records_holding

theorem isLive_lease (h : (Held.lease held).isLive d.lease now) :
    ∃ recorded, d.lease = some recorded ∧ recorded.owner = held.owner ∧ recorded.epoch = held.epoch := by
  obtain ⟨l, hl, _, ha⟩ := Held.isLive_iff.mp h
  exact ⟨l, hl, of_decide_eq_true ha⟩

theorem effect_renew {l : Lease} (h : (extend held now tick).exec c d = .ok (l, d')) :
    Effect d d' (.renew held now tick) := by
  simp only [extend, Held.check, exec_bind_assoc, Change.exec_lease, exec_ensure, guard_ok] at h
  obtain ⟨hc, h⟩ := h
  obtain ⟨recorded, hr, ho⟩ := isLive_lease hc
  simp only [hr, exec_ite, exec_write] at h
  split at h
  case isTrue =>
    cases h
    exact .refused rfl rfl rfl
  case isFalse =>
    cases h
    exact .extended recorded hr ho (by simp [Sections.fetch]) (by simp [SameEpoch, Sections.fetch])

theorem effect_release {r : Unit} (h : (drop held now).exec c d = .ok (r, d')) :
    Effect d d' (.release held now) := by
  simp only [drop, Held.check, exec_bind_assoc, Change.exec_lease, exec_ensure, guard_ok] at h
  obtain ⟨hc, h⟩ := h
  obtain ⟨recorded, hr, ho⟩ := isLive_lease hc
  rw [exec_write_done] at h
  cases h
  exact .dropped recorded hr ho (by simp [Sections.fetch]) (by simp [SameEpoch, Sections.fetch])

theorem effect_fenced {held : Option Held} {work : Work} {r : Unit}
    (h : (fenced held now work.change).exec c d = .ok (r, d')) : Effect d d' (.fenced held now work) := by
  obtain ⟨h, hl⟩ := fenced_ok h
  refine .worked (work.keeps h .lease (by simp)) (work.keeps h .epoch (by simp)) fun held hh => ?_
  obtain ⟨l, hr, _, ha⟩ := Held.isLive_iff.mp (hl held hh)
  exact ⟨l, hr, Held.epoch_of_agrees ha⟩

theorem effect_exec (h : operation.change.exec c d = .ok (result, d')) : Effect d d' operation := by
  cases operation <;> simp only [Operation.change] at h
  case acquire => exact effect_acquire h
  case transfer =>
    obtain ⟨_, h, _⟩ := exec_map_ok h
    exact effect_transfer h
  case renew =>
    obtain ⟨_, h, _⟩ := exec_map_ok h
    exact effect_renew h
  case release =>
    obtain ⟨_, h, _⟩ := exec_map_ok h
    exact effect_release h
  case fenced =>
    obtain ⟨_, h, _⟩ := exec_map_ok h
    exact effect_fenced h

end Lease

-- A commit has the effect of its operation on the document it reaches, on either layout.

namespace Lease

open Program Fencing Versioned

variable {store store' : Store} {d d' after : Document} {operation : Operation} {nowMs : Int}
variable {result : Option Lease} {t : Attempt (Option Lease)}

theorem lease_eq (h : SameLease d d') : d'.lease = d.lease :=
  congrArg (Option.getD · none) h

theorem epoch_eq (h : SameEpoch d d') : d'.epoch = d.epoch :=
  congrArg (Option.getD · (0 : Int)) h

-- The lease and the epoch of a document that has the scalars of `EMPTY`, recorded or not.
theorem records_of_defaults (h : ∃ scalars, d .scalar = scalars ∪ defaults) : Records d d.lease d.epoch := by
  obtain ⟨scalars, hd⟩ := h
  have hs {k : Scalar} (hk : k ∈ defaults.keys) : ∃ v, (d .scalar).lookup k = some v := by
    obtain ⟨v, hv⟩ := Finmap.mem_iff.mp (Finmap.mem_keys.mp hk)
    cases hc : scalars.lookup k
    case none   => exact ⟨v, by simp [hd, Finmap.lookup_union, hc, hv]⟩
    case some w => exact ⟨w, by simp [hd, Finmap.lookup_union, hc]⟩
  have ⟨lease, hl⟩ : ∃ v, (d .scalar).lookup .lease = some v := hs (by decide)
  have ⟨epoch, he⟩ : ∃ v, (d .scalar).lookup .epoch = some v := hs (by decide)
  exact ⟨by rw [Sections.fetch, hl, Document.lease, hl]; rfl, by rw [Sections.fetch, he, Document.epoch, he]; rfl⟩

theorem records_assemble {loaded : Loaded} :
    Records (assemble loaded) (assemble loaded).lease (assemble loaded).epoch :=
  records_of_defaults ⟨_, rfl⟩

-- What a change reads first of the scalars is among what it read.
theorem seen_of_get {α : Type} {history : History} {k : Scalar} {next : Option k.Value → Change α} :
    ∃ r, readSet history (.get .scalar k next) d .initial .scalar = some r ∧ k ∈ r.seen := by
  have hr : ReadSet.initial.see .scalar k .scalar = some ⟨{k}, false⟩ := by
    simp [ReadSet.see, ReadSet.initial]
  obtain ⟨r, hr, hs⟩ := Attempt.seen_readSet (p := next ((d .scalar).lookup k)) hr
  exact ⟨r, hr, hs (by simp)⟩

-- A lease that the change reads first, and finds, is the lease on the store.
theorem lease_of_read (ht : t.Taken store) (hm : store.Meets (t.batch after)) (hf : t.fence = none)
    (hg : ∃ next, t.change = .get .scalar Scalar.lease next) {l : Lease} (hl : (assemble t.loaded).lease = some l) :
    SameLease (assemble t.loaded) (loadedDocument store) := by
  obtain ⟨next, hg⟩ := hg
  have ⟨r, hr, hs⟩ : ∃ r, t.reads .scalar = some r ∧ .lease ∈ r.seen := by
    rw [Attempt.reads, hg]
    exact seen_of_get
  refine Attempt.fetch_of_read ht hm ⟨rfl, by simp⟩ hr ?_ (by simp [hf])
  split
  case isFalse => exact hs
  case isTrue =>
    intro hn
    have hv : ((t.loaded.values .scalar).erase Scalar.layout).lookup Scalar.lease = none := by
      rw [Finmap.lookup_erase_ite, if_neg (by simp)]
      exact lookup_values.trans (by rw [hn]; rfl)
    have hd : (assemble t.loaded .scalar).lookup .lease = some none := by
      simp only [assemble, Finmap.lookup_union, hv, Option.none_or]
      rfl
    rw [Document.lease, hd] at hl
    cases hl

section Written

variable (ht : t.Taken store) (hm : store.Meets (t.batch after))
include ht hm

-- A scalar that is as it was loaded, or was written, is on the store what the change left.
theorem fetch_after {k : Scalar} {v : k.Value} (hk : k ≠ .layout)
    (hs : (assemble t.loaded).fetch ⟨.scalar, k⟩ = after.fetch ⟨.scalar, k⟩ →
      (loadedDocument store).fetch ⟨.scalar, k⟩ = (assemble t.loaded).fetch ⟨.scalar, k⟩)
    (hv : after.fetch ⟨.scalar, k⟩ = some v) :
    (loadedDocument store).fetch ⟨.scalar, k⟩ = (assemble t.loaded).fetch ⟨.scalar, k⟩ ∧
      (loadedDocument (store.apply (t.batch after))).fetch ⟨.scalar, k⟩ = some v := by
  have hd : Section.scalar.isLoaded ∧ Section.scalar ≠ .byName := ⟨rfl, by simp⟩
  by_cases he : (assemble t.loaded).fetch ⟨.scalar, k⟩ = after.fetch ⟨.scalar, k⟩
  case pos => exact ⟨hs he, by rw [Attempt.loadedDocument_apply_of_eq hd he, hs he, he, hv]⟩
  case neg =>
    exact ⟨Attempt.fetch_of_written ht hm hd he,
      Attempt.loadedDocument_apply_of_ne hd (by simpa using hk) he hv⟩

omit ht hm in
theorem same_apply {k : Scalar} (he : after.fetch ⟨.scalar, k⟩ = (assemble t.loaded).fetch ⟨.scalar, k⟩) :
    (loadedDocument (store.apply (t.batch after))).fetch ⟨.scalar, k⟩ =
      (loadedDocument store).fetch ⟨.scalar, k⟩ :=
  Attempt.loadedDocument_apply_of_eq ⟨rfl, by simp⟩ he.symm

theorem effect_records (hw : t.toFencedWrite = operation.write) (hl : Sound (assemble t.loaded))
    (hd : Sound (loadedDocument store)) (hx : t.change.exec t.history (assemble t.loaded) = .ok (result, after))
    (hf : ∀ f ∈ t.fence, ∃ l, (loadedDocument store).lease = some l ∧ l.epoch = f.epochOf) :
    Effect (loadedDocument store) (loadedDocument (store.apply (t.batch after))) operation := by
  have hc : t.change = operation.change := congrArg FencedWrite.change hw
  have hn : t.fence = operation.fence := congrArg FencedWrite.fence hw
  have he : Effect (assemble t.loaded) after operation := effect_exec (hc ▸ hx)
  have hr : Records (assemble t.loaded) (assemble t.loaded).lease (assemble t.loaded).epoch := records_assemble
  cases he
  case refused hl' he' hf' => exact .refused (same_apply hl') (same_apply he') hf'
  case worked hl' he' _ =>
    refine .worked (same_apply hl') (same_apply he') ?_
    rwa [hn] at hf
  case kept current hk ho ha =>
    obtain ⟨hk, hlive⟩ := live_eq_some.mp hk
    have hs := lease_of_read ht hm hn ⟨_, hc⟩ hk
    have hd' : Records (loadedDocument store) (loadedDocument store).lease (loadedDocument store).epoch :=
      records_assemble
    have hsome : (loadedDocument store).lease = some current := (lease_eq hs).trans hk
    obtain ⟨_, hlease⟩ := fetch_after ht hm (by simp) (fun _ => hs) ha.left
    have hepoch : (loadedDocument store).fetch ⟨.scalar, .epoch⟩ = (assemble t.loaded).fetch ⟨.scalar, .epoch⟩ := by
      rw [hd'.right, hr.right, ← hd current hsome, ← hl current hk]
    obtain ⟨_, hepoch⟩ := fetch_after ht hm (by simp) (fun _ => hepoch) ha.right
    exact .kept current (live_eq_some.mpr ⟨hsome, hlive⟩) ho ⟨hlease, hepoch⟩
  case acquired keeper hk ha =>
    have hne : (assemble t.loaded).fetch ⟨.scalar, .lease⟩ ≠ after.fetch ⟨.scalar, .lease⟩ := by
      intro h
      rw [hr.left, ha.left] at h
      have hle := hl _ (Option.some.inj h)
      dsimp only at hle
      omega
    obtain ⟨hs, hlease⟩ := fetch_after ht hm (by simp) (absurd · hne) ha.left
    have hne : (assemble t.loaded).fetch ⟨.scalar, .epoch⟩ ≠ after.fetch ⟨.scalar, .epoch⟩ := by
      intro h
      rw [hr.right, ha.right] at h
      have hle := Option.some.inj h
      omega
    obtain ⟨he, hepoch⟩ := fetch_after ht hm (by simp) (absurd · hne) ha.right
    refine .acquired keeper (lease_eq hs ▸ hk) ?_
    rw [epoch_eq he]
    exact ⟨hlease, hepoch⟩
  case transferred epoch hlt ha =>
    have hne : (assemble t.loaded).fetch ⟨.scalar, .lease⟩ ≠ after.fetch ⟨.scalar, .lease⟩ := by
      intro h
      rw [hr.left, ha.left] at h
      have hle := hl _ (Option.some.inj h)
      dsimp only at hle
      omega
    obtain ⟨_, hlease⟩ := fetch_after ht hm (by simp) (absurd · hne) ha.left
    have hne : (assemble t.loaded).fetch ⟨.scalar, .epoch⟩ ≠ after.fetch ⟨.scalar, .epoch⟩ := by
      intro h
      rw [hr.right, ha.right] at h
      have hle := Option.some.inj h
      omega
    obtain ⟨he, hepoch⟩ := fetch_after ht hm (by simp) (absurd · hne) ha.right
    exact .transferred epoch (by rwa [epoch_eq he]) ⟨hlease, hepoch⟩
  case extended recorded hk ho ha he =>
    have hs := lease_of_read ht hm hn ⟨_, hc⟩ hk
    obtain ⟨_, hlease⟩ := fetch_after ht hm (by simp) (fun _ => hs) ha
    exact .extended recorded ((lease_eq hs).trans hk) ho hlease (same_apply he)
  case dropped recorded hk ho ha he =>
    have hne : (assemble t.loaded).fetch ⟨.scalar, .lease⟩ ≠ after.fetch ⟨.scalar, .lease⟩ := by
      rw [hr.left, ha, hk]
      simp
    obtain ⟨hs, hlease⟩ := fetch_after ht hm (by simp) (absurd · hne) ha
    exact .dropped recorded ((lease_eq hs).trans hk) ho hlease (same_apply he)

end Written

end Lease
