import Agentihooks.Lease.System
import Agentihooks.Fencing.Theorems.Write
import Agentihooks.Lease.Theorems.Layouts

-- Epochs only go up, every new holder has a greater one than any before it, and nothing is committed under
-- an epoch that has been passed.

namespace Lease

open Program Fencing Versioned

variable {d d' after : Document} {operation : Operation} {nowMs : Int} {swarm swarm' : Swarm}
variable {t : WriteAttempt (Option Lease)} {entry entry' : Entry} {s : System} {e : Event}

-- A document that keeps the scalars of another one is as good as that one.
theorem Effect.of_fetch (h : Effect d after operation) (hd : Records d d.lease d.epoch)
    (hf : ∀ (k : Scalar) v, after.fetch ⟨.scalar, k⟩ = some v → d'.fetch ⟨.scalar, k⟩ = some v) :
    Effect d d' operation := by
  have hl (hs : SameLease d after) : SameLease d d' := (hf _ _ (hs.trans hd.left)).trans hd.left.symm
  have he (hs : SameEpoch d after) : SameEpoch d d' := (hf _ _ (hs.trans hd.right)).trans hd.right.symm
  have hr {lease : Option Lease} {epoch : Int} (hr : Records after lease epoch) : Records d' lease epoch :=
    ⟨hf _ _ hr.left, hf _ _ hr.right⟩
  cases h
  case refused hl' he' hn          => exact .refused (hl hl') (he he') hn
  case kept current hk ho ha       => exact .kept current hk ho (hr ha)
  case acquired keeper hk ha       => exact .acquired keeper hk (hr ha)
  case transferred epoch hlt ha    => exact .transferred epoch hlt (hr ha)
  case extended recorded hk ho ha he' => exact .extended recorded hk ho (hf _ _ ha) (he he')
  case dropped recorded hk ho ha he'  => exact .dropped recorded hk ho (hf _ _ ha) (he he')
  case worked hl' he' hh           => exact .worked (hl hl') (he he') hh

theorem effect_document {t : DocumentAttempt (Option Lease)} {result : Option Lease}
    (hw : t.toFencedWrite = operation.write) (he : t.entry.revision = entry.revision → t.entry = entry)
    (h : t.commit entry = .committed result entry') : Effect entry.decode entry'.decode operation := by
  obtain ⟨after, hx, _, hr, rfl⟩ := DocumentAttempt.commit_eq_committed.mp h
  obtain rfl := he hr.symm
  have hc : t.change = operation.change := congrArg FencedWrite.change hw
  refine (effect_exec (hc ▸ hx)).of_fetch (records_of_defaults ⟨_, rfl⟩) fun k v hv => ?_
  refine Entry.fetch_decode ?_
  rw [Sections.fetch, Entry.scalar_settle]
  exact hv

-- An attempt that is under way: the document it loaded is the one that had its revision, and the records it
-- loaded are those of an earlier store.
def Taken (operation : Operation) (swarm : Swarm) : WriteAttempt (Option Lease) → Prop
  | .document t => t.toFencedWrite = operation.write ∧ swarm.entry.moved = false ∧
    t.entry.revision ≤ swarm.entry.revision ∧ (t.entry.revision = swarm.entry.revision → t.entry = swarm.entry)
  | .records t  => t.toFencedWrite = operation.write ∧ swarm.entry.moved = true ∧ t.Taken swarm.store ∧
    Sound (assemble t.loaded)

theorem taken_start (h : Sound swarm.document) : Taken operation swarm (swarm.start operation.write) := by
  unfold Swarm.document at h
  unfold Swarm.start
  split at h <;> rename_i hm
  · rw [if_pos hm]
    exact ⟨rfl, hm, .start, h⟩
  · rw [if_neg hm]
    exact ⟨rfl, by simpa using hm, le_rfl, fun _ => rfl⟩

theorem Taken.hydrate (h : Taken operation swarm t) : Taken operation swarm (t.hydrate swarm.store) := by
  cases t
  case document => exact h
  case records t => exact ⟨h.left, h.right.left, h.right.right.left.hydrate, h.right.right.right⟩

theorem commit_cases {α : Type} {t : WriteAttempt α} (h : (swarm.commit t nowMs).next = some swarm') :
    (∃ t' result entry, t = .document t' ∧ t'.commit swarm.entry = .committed result entry ∧
      swarm' = { swarm with entry := entry }) ∨
    ∃ t' result store, t = .records t' ∧ t'.commit nowMs swarm.store = .committed result store ∧
      swarm' = { swarm with store := store } := by
  cases t <;> unfold Swarm.commit at h <;> dsimp only at h
  case document t =>
    cases hc : t.commit swarm.entry <;> rw [hc] at h <;> cases h
    exact .inl ⟨t, _, _, rfl, hc, rfl⟩
  case records t =>
    cases hc : t.commit nowMs swarm.store <;> rw [hc] at h <;> cases h
    exact .inr ⟨t, _, _, rfl, hc, rfl⟩

-- What the script reads is the lease of the document.
theorem leaseOf_eq {store : Store} : leaseOf store = (loadedDocument store).lease := by
  have hl : (loadedDocument store .scalar).lookup Scalar.lease =
      (((store.rows .scalar).lookup Scalar.lease).map Record.value).or (some none) := by
    simp only [loadedDocument, assemble, Finmap.lookup_union]
    rw [Finmap.lookup_erase_ite, if_neg (by simp)]
    congr 1
    exact lookup_values
  rw [leaseOf, Document.lease, hl]
  cases (store.rows .scalar).lookup Scalar.lease <;> rfl

theorem epoch_of_admits {held : Held} {recorded : Option Lease} (h : (leaseFence held nowMs).Admits recorded) :
    ∃ l, recorded = some l ∧ l.epoch = held.epochOf := by
  obtain ⟨l, hl, _, he, _⟩ := h
  refine ⟨l, hl, he.trans ?_⟩
  cases held <;> rfl

theorem effect_commit (ht : Taken operation swarm t) (hs : Sound swarm.document)
    (h : (swarm.commit t nowMs).next = some swarm') : Effect swarm.document swarm'.document operation := by
  cases commit_cases h with
  | inl h =>
    obtain ⟨t, result, entry, rfl, hc, rfl⟩ := h
    obtain ⟨hw, hm, _, he⟩ := ht
    obtain ⟨hr, _, hm'⟩ := DocumentAttempt.commit_later hc
    have hm' : entry.moved = false := by rw [hm', he hr.symm, hm]
    simp only [Swarm.document, hm, hm']
    exact effect_document hw he hc
  | inr h =>
    obtain ⟨t, result, store, rfl, hc, rfl⟩ := h
    obtain ⟨hw, hm, ht, hl⟩ := ht
    simp only [Swarm.document, hm, if_true] at hs ⊢
    obtain ⟨after, hx, _, hb⟩ := Attempt.commit_eq_committed.mp hc
    obtain ⟨hf, hm, rfl⟩ := fencedBatch_ok hb
    refine effect_records ht hm hw hl hs hx fun f hf' => ?_
    have ha := hf _ (Option.mem_map_of_mem _ hf')
    rw [leaseOf_eq] at ha
    exact epoch_of_admits ha

-- What was loaded before a commit of another caller is still an earlier state after it.
theorem Taken.commit {operation' : Operation} {t' : WriteAttempt (Option Lease)} (h : Taken operation swarm t)
    (ht : Taken operation' swarm t') (hc : (swarm.commit t' nowMs).next = some swarm') :
    Taken operation swarm' t := by
  cases commit_cases hc with
  | inl hc =>
    obtain ⟨t', result, entry, rfl, hc', rfl⟩ := hc
    obtain ⟨hr, hn, hm⟩ := DocumentAttempt.commit_later hc'
    rw [ht.right.right.right hr.symm] at hm
    cases t
    case document =>
      refine ⟨h.left, hm.trans h.right.left, ?_, fun he => ?_⟩
      case refine_1 =>
        have hle := h.right.right.left
        dsimp only
        omega
      case refine_2 =>
        have hle := h.right.right.left
        dsimp only at he
        omega
    case records => exact ⟨h.left, hm.trans h.right.left, h.right.right⟩
  | inr hc =>
    obtain ⟨t', result, store, rfl, hc', rfl⟩ := hc
    obtain ⟨after, _, _, hb⟩ := Attempt.commit_eq_committed.mp hc'
    obtain ⟨_, _, rfl⟩ := fencedBatch_ok hb
    cases t
    case document => exact h
    case records  => exact ⟨h.left, h.right.left, h.right.right.left.apply, h.right.right.right⟩

theorem Records.eq {lease : Option Lease} {epoch : Int} (h : Records d lease epoch) :
    d.lease = lease ∧ d.epoch = epoch :=
  ⟨congrArg (Option.getD · none) h.left, congrArg (Option.getD · (0 : Int)) h.right⟩

theorem lease_of_fetch {lease : Option Lease} (h : d.fetch ⟨.scalar, .lease⟩ = some lease) : d.lease = lease :=
  congrArg (Option.getD · none) h

section Effect

variable (h : Effect d d' operation) (hs : Sound d)
include h hs

theorem Effect.sound : Sound d' := by
  have hr {lease : Lease} {epoch : Int} (hr : Records d' (some lease) epoch) (he : lease.epoch = epoch) :
      Sound d' := by
    intro l hl
    rw [hr.eq.left] at hl
    cases hl
    rw [hr.eq.right, he]
  cases h
  case refused hl he _ | worked hl he _ =>
    intro l hl'
    rw [epoch_eq he]
    exact hs l (lease_eq hl ▸ hl')
  case kept ha                => exact hr ha rfl
  case acquired ha            => exact hr ha rfl
  case transferred ha         => exact hr ha rfl
  case extended held _ _ recorded hl ho ha he =>
    intro l hl'
    rw [lease_of_fetch ha] at hl'
    cases hl'
    rw [epoch_eq he, ← hs recorded hl, ho.right]
  case dropped ha he          =>
    intro l hl
    rw [lease_of_fetch ha] at hl
    cases hl

theorem Effect.epoch_le : d.epoch ≤ d'.epoch := by
  cases h
  case refused he _ | extended he | dropped he | worked he _ => exact (epoch_eq he).ge
  case kept current hk ho ha  =>
    rw [ha.eq.right, hs current (live_eq_some.mp hk).left]
  case acquired ha            =>
    have := ha.eq.right
    omega
  case transferred hlt ha     =>
    have := ha.eq.right
    omega

omit hs

-- Whoever did not hold the live lease is granted one of a greater epoch.
theorem Effect.epoch_lt {l : Lease} (hl : l ∈ grant operation d d') (hn : ¬operation.Holding d) :
    d.epoch < l.epoch := by
  have hg : operation.Grants ∧ d'.lease ≠ d.lease := by
    by_contra hg
    rw [grant, if_neg hg] at hl
    cases hl
  rw [grant, if_pos hg, Option.mem_toList] at hl
  cases h
  case refused hl' _ _     => exact absurd (lease_eq hl') hg.right
  case kept current hk ho _ => exact absurd ⟨current, hk, ho⟩ hn
  case acquired ha =>
    rw [ha.eq.left] at hl
    cases hl
    exact Int.lt_succ _
  case transferred hlt ha =>
    rw [ha.eq.left] at hl
    cases hl
    exact hlt
  case extended | dropped | worked => cases hg.left

theorem Effect.lease_of_presented {held : Lease} (hp : operation.presented = some held)
    (hn : ∀ l ∈ d.lease, ¬(l.owner = held.owner ∧ l.epoch = held.epoch)) : d'.lease = d.lease := by
  cases h
  case refused hl _ _ => exact lease_eq hl
  case extended recorded hl ho _ _ | dropped recorded hl ho _ _ =>
    cases hp
    exact absurd ho (hn recorded hl)
  case kept | acquired | transferred | worked => cases hp

theorem Effect.lease_of_fence {held : Held} (hf : held ∈ operation.fence) :
    ∃ l, d.lease = some l ∧ l.epoch = held.epochOf := by
  cases h
  case refused hn            => rw [hn] at hf; cases hf
  case worked hh             => exact hh held hf
  case kept | acquired | transferred | extended | dropped => cases hf

end Effect

-- What holds of the lease and of all callers after any run.
structure Safe (s : System) : Prop where
  sound   : Sound s.swarm.document
  granted : ∀ g ∈ s.granted, g.epoch ≤ s.swarm.document.epoch
  taken   : ∀ caller operation t, s.attempts caller = some (operation, t) → Taken operation s.swarm t

namespace Safe

theorem start (h : Sound swarm.document) : Safe (.start swarm) where
  sound   := h
  granted := fun g hg => (h g (Option.mem_toList.mp hg)).le
  taken   := fun _ _ _ ht => by cases ht

theorem leave (h : Safe s) {caller : ℕ} {attempt : Option (Operation × WriteAttempt (Option Lease))}
    (ht : ∀ operation t, attempt = some (operation, t) → Taken operation s.swarm t) :
    Safe (s.leave caller attempt) where
  sound   := h.sound
  granted := h.granted
  taken   := fun other operation t ho => by
    by_cases he : other = caller
    case pos =>
      subst he
      exact ht operation t (by simpa [System.leave] using ho)
    case neg => exact h.taken other operation t (by simpa [System.leave, he] using ho)

theorem effect (h : Safe s) {caller : ℕ} (hc : s.Commits caller nowMs operation swarm') :
    Effect s.swarm.document swarm'.document operation := by
  obtain ⟨t, ht, hc⟩ := hc
  exact effect_commit (h.taken caller operation t ht) h.sound hc

theorem commit (h : Safe s) {caller : ℕ} (hc : s.Commits caller nowMs operation swarm') :
    Safe { s.leave caller none with
      swarm := swarm', granted := s.granted ++ grant operation s.swarm.document swarm'.document } where
  sound   := (h.effect hc).sound h.sound
  granted := fun g hg => by
    have he := h.effect hc
    cases List.mem_append.mp hg with
    | inl hg => exact (h.granted g hg).trans (he.epoch_le h.sound)
    | inr hg =>
      unfold grant at hg
      split at hg
      case isFalse => cases hg
      case isTrue  => exact (he.sound h.sound g (Option.mem_toList.mp hg)).le
  taken   := fun other operation' t' ho => by
    obtain ⟨t, ht, hc⟩ := hc
    have hl : Safe (s.leave caller none) := h.leave fun _ _ h => by cases h
    exact (hl.taken other operation' t' ho).commit (h.taken caller operation t ht) hc

theorem step (h : Safe s) : Safe (s.step e) := by
  cases e
  case load caller operation =>
    refine h.leave fun _ _ ht => ?_
    cases ht
    exact taken_start h.sound
  case run caller =>
    refine h.leave fun operation t ht => ?_
    obtain ⟨⟨_, t⟩, hi, hc⟩ := Option.map_eq_some_iff.mp ht
    cases hc
    exact (h.taken caller operation t hi).hydrate
  case commit caller nowMs =>
    unfold System.step
    dsimp only
    split
    case h_1 => exact h
    case h_2 operation t ht =>
      split
      case h_1 => exact h.leave fun _ _ h => by cases h
      case h_2 swarm' hc => exact h.commit ⟨t, ht, hc⟩

theorem epoch_le (h : Safe s) : s.swarm.document.epoch ≤ (s.step e).swarm.document.epoch := by
  cases e
  case load | run => exact le_rfl
  case commit caller nowMs =>
    unfold System.step
    dsimp only
    split
    case h_1 => exact le_rfl
    case h_2 operation t ht =>
      split
      case h_1 => exact le_rfl
      case h_2 swarm' hc => exact (h.effect ⟨t, ht, hc⟩).epoch_le h.sound

theorem run (h : Sound swarm.document) (es : List Event) : Safe (System.run swarm es) :=
  Run.invariant (fun _ _ h => h.step) (start h)

-- A superseded lease is not the one that is recorded.
theorem ne_of_superseded (h : Safe s) {held : Lease} (hs : s.Superseded held) :
    ∀ l ∈ s.swarm.document.lease, ¬(l.owner = held.owner ∧ l.epoch = held.epoch) := by
  cases hs with
  | inr hs => exact hs
  | inl hs =>
    obtain ⟨g, hg, hlt⟩ := hs
    intro l hl ha
    have hle := h.granted g hg
    have he := h.sound l hl
    omega

end Safe

-- Epochs never go down. A commit of any run grants a lease of a new epoch to whoever did not have the live
-- one, is made under no epoch that another one followed, and leaves the lease to whoever superseded it.
theorem lease_safety (swarm : Swarm) (es es' : List Event) (h : Sound swarm.document) :
    (System.run swarm es).swarm.document.epoch ≤ (System.run swarm (es ++ es')).swarm.document.epoch ∧
    ∀ caller nowMs operation swarm', (System.run swarm es).Commits caller nowMs operation swarm' →
      (∀ l ∈ grant operation (System.run swarm es).swarm.document swarm'.document,
        ¬operation.Holding (System.run swarm es).swarm.document →
          ∀ g ∈ (System.run swarm es).granted, g.epoch < l.epoch) ∧
      (∀ held ∈ operation.fence, ∀ g ∈ (System.run swarm es).granted, g.epoch ≤ held.epochOf) ∧
      (∀ held ∈ operation.presented, (System.run swarm es).Superseded held →
        swarm'.document.lease = (System.run swarm es).swarm.document.lease) := by
  have hs : Safe (System.run swarm es) := .run h es
  constructor
  case left =>
    rw [System.run, System.run, Run.run_append]
    exact Run.monotone (R := fun s s' : System => s.swarm.document.epoch ≤ s'.swarm.document.epoch)
      (P := fun _ _ => True) (I := Safe) (fun _ => le_rfl) le_trans (fun _ _ h _ => h.step) (fun _ _ h _ => h.epoch_le) hs (.of_forall fun _ _ => trivial)
  case right =>
    intro caller nowMs operation swarm' hc
    have he := hs.effect hc
    refine ⟨fun l hl hn g hg => ?_, fun held hf g hg => ?_, fun held hp hn => ?_⟩
    case refine_1 => exact (hs.granted g hg).trans_lt (he.epoch_lt hl hn)
    case refine_2 =>
      obtain ⟨l, hl, hle⟩ := he.lease_of_fence hf
      rw [← hle, hs.sound l hl]
      exact hs.granted g hg
    case refine_3 => exact he.lease_of_presented hp (hs.ne_of_superseded hn)

-- A swarm of either layout in which nobody holds the lease yet.
def fresh (moved : Bool) : Swarm :=
  ⟨⟨.empty, none, moved, 0⟩, .empty⟩

-- One owner acquires the lease, and another one when it has expired.
def takeover : List Event :=
  [.load 0 (.acquire "a" "h" 0 10), .commit 0 0, .load 1 (.acquire "b" "k" 20 10)]

theorem sound_fresh {moved : Bool} : Sound (fresh moved).document := by
  intro l hl
  have hn : (fresh moved).document.lease = none := by cases moved <;> rfl
  rw [hn] at hl
  cases hl

theorem lease_safety_takeover :
    (∀ g ∈ (System.run (fresh false) takeover).granted, g.epoch < 2) ∧
    ∀ g ∈ (System.run (fresh true) takeover).granted, g.epoch < 2 := by
  constructor
  case left =>
    have h := ((lease_safety (fresh false) takeover [] sound_fresh).right 1 20 _ _ ⟨_, rfl, rfl⟩).left
    exact h ⟨"b", 2, 30⟩ (by decide) (by rintro ⟨_, hl, _⟩; cases hl)
  case right =>
    have h := ((lease_safety (fresh true) takeover [] sound_fresh).right 1 20 _ _ ⟨_, rfl, rfl⟩).left
    exact h ⟨"b", 2, 30⟩ (by decide) (by rintro ⟨_, hl, _⟩; cases hl)

end Lease

-- Epochs of leases of different owners stay apart as long as nothing that is put back is behind the swarm.

namespace Lease

open Program Fencing Versioned

variable {d d' after : Document} {c : History} {swarm swarm' : Swarm} {machine : String → String}

theorem document_moved (h : swarm.entry.moved = true) : swarm.document = loadedDocument swarm.store :=
  if_pos h

theorem document_not_moved (h : swarm.entry.moved = false) : swarm.document = swarm.entry.decode :=
  if_neg (by simp [h])

-- What a write leaves in the scalars is what they are afterwards.
def Leaves {α : Type} (w : FencedWrite α) (swarm swarm' : Swarm) : Prop :=
  ∃ c result after, w.change.exec c swarm.document = .ok (result, after) ∧
    ∀ (k : Scalar) v, k ≠ .layout → after.fetch ⟨.scalar, k⟩ = some v → swarm'.document.fetch ⟨.scalar, k⟩ = some v

section Leaves

variable {α : Type} {w : FencedWrite α} {nowMs : Int}

theorem leaves_document (hm : swarm.entry.moved = false)
    (h : (swarm.commit (.document ⟨w, swarm.entry⟩) nowMs).next = some swarm') : Leaves w swarm swarm' := by
  cases commit_cases h with
  | inr h =>
    obtain ⟨_, _, _, ht, _⟩ := h
    cases ht
  | inl h =>
    obtain ⟨t, result, entry, ht, hc, rfl⟩ := h
    cases ht
    obtain ⟨_, _, hm'⟩ := DocumentAttempt.commit_later hc
    obtain ⟨after, hx, _, _, he⟩ := DocumentAttempt.commit_eq_committed.mp hc
    refine ⟨swarm.entry.history, result, after, ?_, fun k v _ hv => ?_⟩
    case refine_1 => rw [document_not_moved hm, hx]
    case refine_2 =>
      rw [document_not_moved (hm'.trans hm)]
      refine Entry.fetch_decode ?_
      rw [he, Sections.fetch, Entry.scalar_settle]
      exact hv

theorem leaves_records (hm : swarm.entry.moved = true)
    (h : (swarm.commit (.records (.start w swarm.store)) nowMs).next = some swarm') : Leaves w swarm swarm' := by
  cases commit_cases h with
  | inl h =>
    obtain ⟨_, _, _, ht, _⟩ := h
    cases ht
  | inr h =>
    obtain ⟨t, result, store, ht, hc, rfl⟩ := h
    cases ht
    obtain ⟨after, hx, _, hb⟩ := Attempt.commit_eq_committed.mp hc
    obtain ⟨_, _, hs⟩ := fencedBatch_ok hb
    have hm' : (⟨swarm.entry, store⟩ : Swarm).document = loadedDocument store := if_pos hm
    refine ⟨(Attempt.start w swarm.store).history, result, after, ?_, fun k v hk hv => ?_⟩
    case refine_1 =>
      rw [document_moved hm]
      exact hx
    case refine_2 =>
      rw [hm', hs]
      have hd : Section.scalar.isLoaded ∧ Section.scalar ≠ .byName := ⟨rfl, by simp⟩
      by_cases he : (assemble (Attempt.start w swarm.store).loaded).fetch ⟨.scalar, k⟩ = after.fetch ⟨.scalar, k⟩
      case pos =>
        calc
          _ = _ := Attempt.loadedDocument_apply_of_eq hd he
          _ = _ := he
          _ = _ := hv
      case neg => exact Attempt.loadedDocument_apply_of_ne hd (by simpa using hk) he hv

theorem leaves_alone (h : Lifetime.alone w nowMs swarm = some swarm') : Leaves w swarm swarm' := by
  unfold Lifetime.alone Swarm.start at h
  cases hm : swarm.entry.moved
  case false =>
    rw [if_neg (by simp [hm])] at h
    exact leaves_document hm h
  case true =>
    rw [if_pos hm] at h
    exact leaves_records hm h

end Leaves

theorem exec_replaceAll {l : List Section} :
    (l.forM fun s => replace s (d' s) : Change Unit).exec c d = .ok ((), fun s => if s ∈ l then d' s else d s) := by
  induction l generalizing d
  case nil => simp
  case cons s l hi =>
    change ((replace s (d' s) : Change Unit) >>= fun _ => l.forM fun s => replace s (d' s)).exec c d = _
    rw [exec_replace, hi]
    congr 2
    funext t
    by_cases ht : t ∈ l
    case pos => simp [ht]
    case neg =>
      by_cases hs : t = s
      case pos =>
        subst hs
        simp [ht]
      case neg => simp [ht, hs]

-- Every document of a swarm records its lease and its epoch.
theorem records_document : Records swarm.document swarm.document.lease swarm.document.epoch := by
  unfold Swarm.document
  split
  case isTrue  => exact records_assemble
  case isFalse => exact records_of_defaults ⟨_, rfl⟩

theorem scalar_saved : (saved swarm).document .scalar = swarm.document .scalar := by
  unfold saved Swarm.document
  split
  case isTrue  => rfl
  case isFalse => simp

theorem records_saved : Records (saved swarm).restored swarm.document.lease swarm.document.epoch := by
  have hf {k : Scalar} {v : k.Value} (h : swarm.document.fetch ⟨.scalar, k⟩ = some v) :
      (saved swarm).restored.fetch ⟨.scalar, k⟩ = some v := by
    have hv : (swarm.document .scalar).lookup k = some v := h
    simp [Sections.fetch, Saved.restored, scalar_saved, Finmap.lookup_union, hv]
  exact ⟨hf records_document.left, hf records_document.right⟩

section Writes

variable {saved : Saved} {result : Unit}

-- The lease and the epoch of a document that is put back, and of one that is removed.
theorem records_putBack (h : Lifetime.alone (putBack saved) 0 swarm = some swarm') :
    Records swarm'.document saved.restored.lease saved.restored.epoch := by
  obtain ⟨c, r, after, hx, hs⟩ := leaves_alone h
  have hr := exec_replaceAll.symm.trans hx
  have ha : after .scalar = saved.restored .scalar := by
    cases hr
    exact if_pos (by decide)
  have hd : Records saved.restored saved.restored.lease saved.restored.epoch := records_of_defaults ⟨_, rfl⟩
  refine ⟨hs _ _ (by simp) ?_, hs _ _ (by simp) ?_⟩
  case refine_1 => rw [Sections.fetch, ha]; exact hd.left
  case refine_2 => rw [Sections.fetch, ha]; exact hd.right

theorem records_removal (h : Lifetime.alone removal 0 swarm = some swarm') :
    Records swarm'.document none swarm.document.epoch := by
  obtain ⟨c, r, after, hx, hs⟩ := leaves_alone h
  simp only [removal, exec_bind, exec_replaceAll] at hx
  cases hx
  refine ⟨hs _ _ (by simp) ?_, hs _ _ (by simp) ?_⟩
  case refine_1 =>
    rw [Sections.fetch, Sections.update_same, Finmap.lookup_union, Finmap.lookup_insert_of_ne _ (by simp)]
    rfl
  case refine_2 =>
    rw [Sections.fetch, Sections.update_same, Finmap.lookup_union, Finmap.lookup_insert]
    rfl

end Writes

-- The leases that can come back: those granted, that of the swarm, and those of its exports.
def Known (s : Lifetime) (l : Lease) : Prop :=
  l ∈ s.granted ∨ s.swarm.document.lease = some l ∨ ∃ saved ∈ s.exports, saved.restored.lease = some l

-- Leases that count as one: of one epoch and one machine.
def Alike (machine : String → String) (l l' : Lease) : Prop :=
  l.epoch = l'.epoch ∧ machine l.owner = machine l'.owner

-- What holds of the leases after any steps: no epoch is ahead of the swarm, and one epoch is of one machine.
structure Guarded (machine : String → String) (s : Lifetime) : Prop where
  sound   : Sound s.swarm.document
  exports : ∀ saved ∈ s.exports, Sound saved.restored
  bound   : ∀ l, Known s l → l.epoch ≤ s.swarm.document.epoch
  agree   : ∀ l l', Known s l → Known s l' → l.epoch = l'.epoch → machine l.owner = machine l'.owner
  ordered : s.granted.Pairwise fun g l => machine g.owner ≠ machine l.owner → g.epoch < l.epoch

namespace Guarded

variable {s s' : Lifetime} {e : Lifetime.Event machine}

theorem start (h : Sound swarm.document) : Guarded machine (.start swarm) := by
  have hk {l : Lease} (hl : Known (.start swarm) l) : swarm.document.lease = some l := by
    rcases hl with hl | hl | hl
    · exact Option.mem_toList.mp hl
    · exact hl
    · simp [Lifetime.start] at hl
  constructor
  case sound   => exact h
  case exports => simp [Lifetime.start]
  case bound   =>
    intro l hl
    exact (h l (hk hl)).le
  case agree   =>
    intro l l' hl hl' _
    cases (hk hl).symm.trans (hk hl')
    rfl
  case ordered =>
    change swarm.document.lease.toList.Pairwise _
    cases swarm.document.lease <;> simp

-- A step keeps all this if the epoch does not go back and the lease is like one that was known, or ahead of all.
theorem next (h : Guarded machine s) (hs : Sound s'.swarm.document) (hx : ∀ saved ∈ s'.exports, Sound saved.restored)
    (he : s.swarm.document.epoch ≤ s'.swarm.document.epoch)
    (hk : ∀ l, Known s' l → (∃ k, Known s k ∧ Alike machine k l) ∨
      s.swarm.document.epoch < l.epoch ∧ s'.swarm.document.lease = some l)
    (hg : ∃ new, s'.granted = s.granted ++ new ∧ new.Pairwise (fun _ _ => False) ∧
      ∀ l ∈ new, s'.swarm.document.lease = some l) : Guarded machine s' := by
  have hb : ∀ l, Known s' l → l.epoch ≤ s'.swarm.document.epoch := by
    intro l hl
    cases hk l hl with
    | inl ha =>
      obtain ⟨k, hkn, ha⟩ := ha
      exact ha.left ▸ (h.bound k hkn).trans he
    | inr hn => exact (hs l hn.right).le
  have ha : ∀ l l', Known s' l → Known s' l' → l.epoch = l'.epoch → machine l.owner = machine l'.owner := by
    intro l l' hl hl' heq
    cases hk l hl with
    | inl hl =>
      obtain ⟨k, hkn, hle, hlm⟩ := hl
      cases hk l' hl' with
      | inl hl' =>
        obtain ⟨k', hkn', hle', hlm'⟩ := hl'
        rw [← hlm, ← hlm']
        exact h.agree k k' hkn hkn' (by omega)
      | inr hn =>
        have hle' := h.bound k hkn
        omega
    | inr hn =>
      cases hk l' hl' with
      | inl hl' =>
        obtain ⟨k', hkn', hle', _⟩ := hl'
        have hle := h.bound k' hkn'
        omega
      | inr hn' =>
        cases hn.right.symm.trans hn'.right
        rfl
  refine ⟨hs, hx, hb, ha, ?_⟩
  obtain ⟨new, hgr, hnew, hl⟩ := hg
  rw [hgr, List.pairwise_append]
  refine ⟨h.ordered, hnew.imp fun hf => hf.elim, fun g hg l hln hm => ?_⟩
  have hkg : Known s' g := .inl (hgr ▸ List.mem_append_left _ hg)
  have hkl : Known s' l := .inl (hgr ▸ List.mem_append_right _ hln)
  have hle := hb g hkg
  have heq := hs l (hl l hln)
  refine lt_of_le_of_ne (by omega) fun hf => hm (ha g l hkg hkl hf)

theorem grant_cases {operation : Operation} :
    grant operation d d' = [] ∨ ∃ l, grant operation d d' = [l] ∧ d'.lease = some l := by
  unfold grant
  split
  case isFalse => exact .inl rfl
  case isTrue  =>
    cases hl : d'.lease
    case none   => exact .inl rfl
    case some l => exact .inr ⟨l, rfl, rfl⟩

theorem mem_grant {operation : Operation} {l : Lease} (h : l ∈ grant operation d d') : d'.lease = some l := by
  have hc : grant operation d d' = [] ∨ ∃ l, grant operation d d' = [l] ∧ d'.lease = some l := grant_cases
  cases hc with
  | inl hg => simp [hg] at h
  | inr hg =>
    obtain ⟨l', hg, hl⟩ := hg
    rw [hg, List.mem_singleton] at h
    rw [h, hl]

-- The lease that an operation leaves is like one that was known, or ahead of all.
theorem lease_of_effect {operation : Operation} (hn : operation.Named machine)
    (he : Effect s.swarm.document d' operation) {l : Lease} (hl : d'.lease = some l) :
    (∃ k, Known s k ∧ Alike machine k l) ∨ s.swarm.document.epoch < l.epoch := by
  cases he
  case refused hl' _ _ | worked hl' _ _ =>
    rw [lease_eq hl'] at hl
    exact .inl ⟨l, .inr (.inl hl), rfl, rfl⟩
  case kept owner hostname now ttl current hc ho ha =>
    rw [ha.eq.left] at hl
    cases hl
    refine .inl ⟨current, .inr (.inl (live_eq_some.mp hc).left), rfl, ?_⟩
    cases ho with
    | inl ho => rw [ho]
    | inr ho => rw [ho, hn]
  case acquired ha =>
    rw [ha.eq.left] at hl
    cases hl
    exact .inr (Int.lt_succ _)
  case transferred hlt ha =>
    rw [ha.eq.left] at hl
    cases hl
    exact .inr hlt
  case extended recorded hc ho ha _ =>
    rw [lease_of_fetch ha] at hl
    cases hl
    exact .inl ⟨recorded, .inr (.inl hc), ho.right, congrArg machine ho.left⟩
  case dropped ha _ =>
    rw [lease_of_fetch ha] at hl
    cases hl

-- A step that grants nothing and puts a lease in place.
theorem write {w : FencedWrite Unit} {lease : Option Lease} {epoch : Int} (h : Guarded machine s)
    (hw : ∀ swarm', Lifetime.alone w 0 s.swarm = some swarm' → Records swarm'.document lease epoch)
    (he : s.swarm.document.epoch ≤ epoch) (hs : ∀ l ∈ lease, l.epoch = epoch)
    (hl : ∀ l ∈ lease, Known s l ∨ s.swarm.document.epoch < l.epoch) : Guarded machine (s.write w) := by
  unfold Lifetime.write
  cases ha : Lifetime.alone w 0 s.swarm
  case none => exact h
  case some swarm' =>
    obtain ⟨hle, hep⟩ := (hw swarm' ha).eq
    refine h.next ?_ h.exports ?_ ?_ ⟨[], by simp⟩
    case refine_1 =>
      intro l hl
      simp only [Option.getD_some] at hl ⊢
      rw [hep, hs l (hle ▸ hl)]
    case refine_2 => simpa [hep] using he
    case refine_3 =>
      intro l hk
      simp only [Known, Option.getD_some, hle] at hk ⊢
      rcases hk with hk | hk | hk
      · exact .inl ⟨l, .inl hk, rfl, rfl⟩
      · cases hl l hk with
        | inl hn => exact .inl ⟨l, hn, rfl, rfl⟩
        | inr hn => exact .inr ⟨hn, hk⟩
      · exact .inl ⟨l, .inr (.inr hk), rfl, rfl⟩

theorem step (h : Guarded machine s) (hf : s.Forward e) : Guarded machine (s.step e) := by
  cases e
  case lease operation nowMs hn =>
    unfold Lifetime.step
    dsimp only
    split
    case h_1 => exact h
    case h_2 swarm' hc =>
      have he : Effect s.swarm.document swarm'.document operation := effect_commit (taken_start h.sound) h.sound hc
      refine h.next (he.sound h.sound) h.exports (he.epoch_le h.sound) ?_ ⟨_, rfl, ?_, ?_⟩
      case refine_1 =>
        intro l hk
        rcases hk with hk | hk | hk
        · cases List.mem_append.mp hk with
          | inl hk => exact .inl ⟨l, .inl hk, rfl, rfl⟩
          | inr hk =>
            have hl : swarm'.document.lease = some l := mem_grant hk
            exact (lease_of_effect hn he hl).imp_right fun hlt => ⟨hlt, hl⟩
        · exact (lease_of_effect hn he hk).imp_right fun hlt => ⟨hlt, hk⟩
        · exact .inl ⟨l, .inr (.inr hk), rfl, rfl⟩
      case refine_2 =>
        have hc : grant operation s.swarm.document swarm'.document = [] ∨ ∃ l,
            grant operation s.swarm.document swarm'.document = [l] ∧ swarm'.document.lease = some l := grant_cases
        cases hc with
        | inl hg => simp [hg]
        | inr hg =>
          obtain ⟨_, hg, _⟩ := hg
          simp [hg]
      case refine_3 => exact fun l => mem_grant
  case remove =>
    refine h.write (fun _ => records_removal) le_rfl (by simp) (by simp)
  case «export» =>
    have hr : Records (saved s.swarm).restored s.swarm.document.lease s.swarm.document.epoch := records_saved
    refine h.next h.sound ?_ le_rfl ?_ ⟨[], by simp [Lifetime.step]⟩
    case refine_1 =>
      intro saved hs
      cases List.mem_append.mp hs with
      | inl hs => exact h.exports saved hs
      | inr hs =>
        cases List.mem_singleton.mp hs
        intro l hl
        rw [hr.eq.right]
        exact h.sound l (hr.eq.left.symm.trans hl)
    case refine_2 =>
      intro l hk
      rcases hk with hk | hk | ⟨saved, hs, hl⟩
      · exact .inl ⟨l, .inl hk, rfl, rfl⟩
      · exact .inl ⟨l, .inr (.inl hk), rfl, rfl⟩
      · cases List.mem_append.mp hs with
        | inl hs => exact .inl ⟨l, .inr (.inr ⟨saved, hs, hl⟩), rfl, rfl⟩
        | inr hs =>
          cases List.mem_singleton.mp hs
          exact .inl ⟨l, .inr (.inl (hr.eq.left.symm.trans hl)), rfl, rfl⟩
  case restore i =>
    unfold Lifetime.step
    dsimp only
    cases hi : s.exports[i]?
    case none => exact h
    case some saved =>
      have hm : saved ∈ s.exports := List.mem_of_getElem? hi
      exact h.write (fun _ => records_putBack) (hf saved hi) (fun l hk => h.exports saved hm l hk)
        fun l hk => .inl (.inr (.inr ⟨saved, hm, hk⟩))
  case legacy document =>
    obtain ⟨he, hl⟩ := hf
    exact h.write (fun _ => records_putBack) he (fun l hk => (hl l hk).left) fun l hk => .inr (hl l hk).right

end Guarded

end Lease
