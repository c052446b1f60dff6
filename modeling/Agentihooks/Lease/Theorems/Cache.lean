import Agentihooks.Lease.Cache
import Agentihooks.Lease.Theorems.Safety

-- Why a cached lease is believed: whoever writes a key of the bucket outdates every lease that was cached before.

namespace Lease

open Program Versioned Fencing

variable {α : Type} {s s' : Bucket α} {slug : String} {cached : Cached} {caller : ℕ}

namespace Bucket

-- A cached lease is outdated, or it is the one of a document that is not moved.
structure Backs (s : Bucket α) (slug : String) (cached : Cached) : Prop where
  le    : cached.revision ≤ s.revision
  lease : cached.revision = s.revision →
    ∃ entry, s.entries slug = some entry ∧ entry.moved = false ∧ entry.decode.lease = cached.lease

-- What one step does to the documents: none is written, or the bucket is at a later revision.
def Grows (s s' : Bucket α) : Prop :=
  s.revision < s'.revision ∨ s'.revision = s.revision ∧ s'.entries = s.entries

theorem Grows.refl : Grows s s :=
  .inr ⟨rfl, rfl⟩

theorem Backs.grows (h : s.Backs slug cached) (hg : Grows s s') : s'.Backs slug cached := by
  have hle := h.le
  obtain hlt | ⟨hr, he⟩ := hg
  · exact ⟨by omega, fun _ => by omega⟩
  · exact ⟨by omega, fun hc => he ▸ h.lease (by omega)⟩

-- Whatever is cached, is still to be cached, or was looked at is backed by the bucket.
structure Sound (s : Bucket α) : Prop where
  attempts : ∀ caller slug t, s.attempts caller = some (slug, .document t) → t.entry.moved = false
  cached   : ∀ slug cached, s.cached slug = some cached → s.Backs slug cached
  pending  : ∀ caller slug cached, s.pending caller = some (slug, cached) → s.Backs slug cached
  looks    : ∀ caller slug cached, s.looks caller = some (slug, some cached) → s.Backs slug cached

namespace Sound

theorem start : Sound (start : Bucket α) where
  attempts := by simp [Bucket.start]
  cached   := by simp [Bucket.start]
  pending  := by simp [Bucket.start]
  looks    := by simp [Bucket.start]

-- A step that touches no lease.
theorem grows (h : s.Sound) (hg : Grows s s')
    (ha : ∀ caller slug t, s'.attempts caller = some (slug, .document t) → t.entry.moved = false)
    (hc : s'.cached = s.cached) (hp : s'.pending = s.pending) (hl : s'.looks = s.looks) : s'.Sound where
  attempts := ha
  cached   := fun slug c hs => (h.cached slug c (hc ▸ hs)).grows hg
  pending  := fun caller slug c hs => (h.pending caller slug c (hp ▸ hs)).grows hg
  looks    := fun caller slug c hs => (h.looks caller slug c (hl ▸ hs)).grows hg

theorem attempt (h : s.Sound) (attempt : Option (String × WriteAttempt α))
    (hm : ∀ slug t, attempt = some (slug, .document t) → t.entry.moved = false) :
    Sound { s with attempts := Function.update s.attempts caller attempt } := by
  refine h.grows .refl (fun caller' slug t ht => ?_) rfl rfl rfl
  by_cases hc : caller' = caller
  case pos =>
    subst hc
    exact hm slug t ((Function.update_self caller' attempt s.attempts).symm.trans ht)
  case neg => exact h.attempts caller' slug t ((Function.update_of_ne hc ..).symm.trans ht)

theorem leave (h : s.Sound) : (s.leave caller).Sound :=
  h.attempt none (by simp)

theorem put {entry : Entry} (h : s.Sound) (hm : entry.moved = false) : (s.put caller slug entry).Sound := by
  have hg : Grows s (s.put caller slug entry) := .inl (Nat.lt_succ_self _)
  constructor
  case attempts => exact h.attempts
  case cached   => exact fun slug c hs => (h.cached slug c hs).grows hg
  case looks    => exact fun caller slug c hs => (h.looks caller slug c hs).grows hg
  case pending =>
    intro caller' slug' c hs
    by_cases hc : caller' = caller
    case neg =>
      have hs' : s.pending caller' = some (slug', c) := (Function.update_of_ne hc ..).symm.trans hs
      exact (h.pending caller' slug' c hs').grows hg
    case pos =>
      subst hc
      have hs' : some (slug, cacheOf entry.decode (s.revision + 1)) = some (slug', c) :=
        (Function.update_self caller' _ s.pending).symm.trans hs
      cases hs'
      exact ⟨le_rfl, fun _ => ⟨_, Function.update_self .., hm, rfl⟩⟩

theorem commit {entry : Entry} {t : WriteAttempt α} {nowMs : Int} (h : s.Sound)
    (hm : ∀ t', t = .document t' → t'.entry.moved = false) : (s.commit caller slug entry t nowMs).Sound := by
  cases t
  case document t =>
    rw [Bucket.commit]
    cases hc : t.commit entry
    case committed result next =>
      have hn : next.moved = t.entry.moved := (DocumentAttempt.commit_later hc).right.right
      exact h.put (hn.trans (hm t rfl))
    all_goals exact h
  case records t =>
    rw [Bucket.commit]
    cases hc : t.commit nowMs (s.stores slug)
    case committed result next => exact h.grows .refl h.attempts rfl rfl rfl
    all_goals exact h

theorem moved_fencedBatch {entry next : Entry} {fence : Option LeaseFence} {batch : Batch Section.Value}
    (h : entry.fencedBatch fence batch = .committed () next) : next.moved = entry.moved := by
  rw [Entry.fencedBatch] at h
  split_ifs at h
  all_goals
    cases h
    first | exact Entry.moved_settle | rfl

theorem batch {entry : Entry} {port : Port} {fence : Option LeaseFence} {writes : Batch Section.Value} (h : s.Sound)
    (hm : port = .wholeDocument → entry.moved = false) : (s.batch caller slug entry port fence writes).Sound := by
  cases port
  case wholeDocument =>
    rw [Bucket.batch]
    cases hc : entry.fencedBatch fence writes
    case committed result next => exact h.put ((moved_fencedBatch hc).trans (hm rfl))
    all_goals exact h
  case records =>
    rw [Bucket.batch]
    cases hc : fencedBatch (s.stores slug) fence writes
    case ok next => exact h.grows .refl h.attempts rfl rfl rfl
    case error   => exact h

theorem cache {lease : Cached} (h : s.Sound) (hl : s.Backs slug lease) : Sound { s with
    cached  := Function.update s.cached slug (some lease)
    pending := Function.update s.pending caller none } := by
  constructor
  case attempts => exact h.attempts
  case looks    => exact fun caller slug c hs => (h.looks caller slug c hs).grows (.inr ⟨rfl, rfl⟩)
  case cached =>
    intro slug' c hs
    by_cases hc : slug' = slug
    case pos =>
      subst hc
      have hs' : some lease = some c := (Function.update_self slug' _ s.cached).symm.trans hs
      cases hs'
      exact hl.grows (.inr ⟨rfl, rfl⟩)
    case neg => exact (h.cached slug' c ((Function.update_of_ne hc ..).symm.trans hs)).grows (.inr ⟨rfl, rfl⟩)
  case pending =>
    intro caller' slug' c hs
    by_cases hc : caller' = caller
    case pos =>
      subst hc
      cases (Function.update_self caller' _ s.pending).symm.trans hs
    case neg => exact (h.pending caller' slug' c ((Function.update_of_ne hc ..).symm.trans hs)).grows (.inr ⟨rfl, rfl⟩)

theorem look (h : s.Sound) : Sound { s with looks := Function.update s.looks caller (some (slug, s.cached slug)) } := by
  constructor
  case attempts => exact h.attempts
  case cached   => exact fun slug c hs => (h.cached slug c hs).grows (.inr ⟨rfl, rfl⟩)
  case pending  => exact fun caller slug c hs => (h.pending caller slug c hs).grows (.inr ⟨rfl, rfl⟩)
  case looks =>
    intro caller' slug' c hs
    by_cases hc : caller' = caller
    case pos =>
      subst hc
      have hs' : some (slug, s.cached slug) = some (slug', some c) :=
        (Function.update_self caller' _ s.looks).symm.trans hs
      rw [Option.some_inj, Prod.mk.injEq] at hs'
      obtain ⟨rfl, hs'⟩ := hs'
      exact (h.cached slug c hs').grows (.inr ⟨rfl, rfl⟩)
    case neg => exact (h.looks caller' slug' c ((Function.update_of_ne hc ..).symm.trans hs)).grows (.inr ⟨rfl, rfl⟩)

theorem step (h : s.Sound) {e : Event α} (hu : s.Unmoved e) : (s.step e).Sound := by
  cases e
  case create slug legacy =>
    rw [Bucket.step]
    cases s.entries slug
    case some => exact h
    case none => exact h.grows (.inl (Nat.lt_succ_self _)) h.attempts rfl rfl rfl
  case load caller slug write =>
    rw [Bucket.step]
    cases s.entries slug
    case none => exact h
    case some entry =>
      refine h.attempt _ fun slug' t ht => ?_
      rw [Option.some_inj, Prod.mk.injEq, Swarm.start] at ht
      obtain ⟨_, ht⟩ := ht
      split_ifs at ht with hm
      rw [WriteAttempt.document.injEq] at ht
      rw [← ht]
      simpa using hm
  case run caller =>
    rw [Bucket.step]
    cases ha : s.attempts caller
    case none => exact h
    case some found =>
      obtain ⟨slug, t⟩ := found
      refine h.attempt _ fun slug' t' ht => ?_
      cases t
      case records  => cases ht
      case document =>
        cases ht
        exact h.attempts _ _ _ ha
  case commit caller nowMs =>
    rw [Bucket.step]
    cases ha : s.attempts caller
    case none => exact h
    case some found =>
      obtain ⟨slug, t⟩ := found
      dsimp only
      cases s.entries slug
      case none       => exact h.leave
      case some entry => exact (h.commit fun t' ht => h.attempts caller slug t' (ht ▸ ha)).leave
  case records caller slug => exact h.grows .refl h.attempts rfl rfl rfl
  case batch caller fence writes =>
    rw [Bucket.step]
    cases hp : s.ports caller
    case none => exact h
    case some found =>
      obtain ⟨slug, port⟩ := found
      dsimp only
      cases he : s.entries slug
      case none       => exact h
      case some entry => exact h.batch fun hw => hu slug entry (hw ▸ hp) he
  case cache caller =>
    rw [Bucket.step]
    cases hp : s.pending caller
    case none => exact h
    case some found =>
      obtain ⟨slug, lease⟩ := found
      exact h.cache (h.pending caller slug lease hp)
  case other => exact h.grows (.inl (Nat.lt_succ_self _)) h.attempts rfl rfl rfl
  case migrate slug =>
    rw [Bucket.step]
    cases s.entries slug
    case none => exact h
    case some entry =>
      dsimp only
      split_ifs
      case pos => exact h
      case neg => exact h.grows (.inl (Nat.lt_succ_self _)) h.attempts rfl rfl rfl
  case look caller slug => exact h.look

end Sound
end Bucket

-- Where the cached lease settles a renewal, the write would have settled it in the same way, and written nothing.
theorem exec_extend_of_cheap {d : Document} {c : History} {held : Lease} {now tick : Int}
    {outcome : Except SwarmError Lease} (h : cheap d.lease held now tick = some outcome) :
    (extend held now tick).exec c d = outcome.map fun live => (live, d) := by
  rw [cheap] at h
  simp only [extend, Held.check, exec_bind_assoc, Change.exec_lease, exec_ensure]
  split_ifs at h with hl
  case neg =>
    cases h
    rw [if_neg hl]
    rfl
  case pos =>
    obtain ⟨recorded, hr, _⟩ := isLive_lease hl
    rw [if_pos hl]
    simp only [hr, Option.bind_some, exec_ite] at h ⊢
    split_ifs at h with ht
    cases h
    rw [if_pos ht]
    rfl

-- As long as no batch goes through the port of a document that is moved by then, a cached lease that is believed is the
-- lease of the swarm, and a renewal that goes by it comes to what the write of the document would have come to.
theorem readLease_current (es : List (Bucket.Event α)) (h : Run.Along Bucket.step Bucket.Unmoved .start es)
    (caller : ℕ) (slug : String) (lease : Option Lease) (hr : (Bucket.run es).readLease caller = some (slug, lease)) :
    ∃ d, (Bucket.run es).document slug = some d ∧ d.lease = lease ∧
      ∀ c held now tick outcome, cheap lease held now tick = some outcome →
        (extend held now tick).exec c d = outcome.map fun live => (live, d) := by
  have hs : (Bucket.run es).Sound := h.invariant (fun _ _ hs hu => hs.step hu) .start
  rw [Bucket.readLease] at hr
  split at hr
  case h_2 => cases hr
  case h_1 slug' cached hl =>
    split_ifs at hr with hc
    cases hr
    obtain ⟨entry, he, hm, hd⟩ := (hs.looks caller slug cached hl).lease hc
    refine ⟨entry.decode, ?_, hd, fun c held now tick outcome ho => exec_extend_of_cheap (hd ▸ ho)⟩
    rw [Bucket.document, he, Option.map_some, Swarm.document]
    simp [hm]

-- A document whose lease is held.
def heldDocument : Document :=
  Document.empty.assign .scalar (.singleton Scalar.lease (some ⟨"a", 1, 100⟩))

-- The holder renews, its lease is cached, and it is looked at.
def renewed : List (Bucket.Event (Option Lease)) :=
  [.create "s" heldDocument, .load 0 "s" (Operation.renew ⟨"a", 1, 100⟩ 50 60).write, .commit 0 50, .cache 0, .look 1 "s"]

theorem readLease_current_renewed : ∃ d, (Bucket.run renewed).document "s" = some d ∧
    d.lease = some ⟨"a", 1, 230⟩ := by
  have h := readLease_current renewed ⟨trivial, trivial, trivial, trivial, trivial, trivial⟩ 1 "s" (some ⟨"a", 1, 230⟩)
    (by decide)
  obtain ⟨d, hd, hl, _⟩ := h
  exact ⟨d, hd, hl⟩

-- A port is picked before the swarm is moved, the holder releases its lease on the records, and a batch goes through
-- the port under that lease.
def leftBehind : List (Bucket.Event (Option Lease)) :=
  [.create "s" heldDocument, .records 0 "s", .migrate "s", .load 1 "s" (Operation.release ⟨"a", 1, 100⟩ 50).write,
    .commit 1 50, .batch 0 (some ⟨"a", 1, 50⟩) fun _ => ∅, .cache 0, .look 2 "s"]

-- The lease is believed and renewed although nobody holds it.
theorem released_lease_read :
    (Bucket.run leftBehind).readLease 2 = some ("s", some ⟨"a", 1, 100⟩) ∧
    ((Bucket.run leftBehind).document "s").map Document.lease = some none ∧
    cheap (some ⟨"a", 1, 100⟩) ⟨"a", 1, 100⟩ 50 20 = some (.ok ⟨"a", 1, 100⟩) := by
  refine ⟨by decide, by decide, by decide⟩

end Lease
