import Agentihooks.Library.Program
import Mathlib.Data.Fintype.Defs

-- A store of records that carry the revision of the batch that wrote them. A batch is applied whole, at one
-- revision, and only while every record it names is at the revision it expects. What a reader took from the
-- store earlier can be told from what is there now by the revisions alone.

namespace Versioned

structure Record (V : Type) where
  revision : ℕ
  value    : V
  deriving DecidableEq

-- The revision a writer expects, where none means that it takes the record as it is.
inductive Write (V : Type)
  | put    (expected : Option ℕ) (value : V)
  | delete (expected : Option ℕ)
  | check  (expected : Option ℕ)
  deriving DecidableEq

variable {V : Type}

-- An absent record is at revision 0.
def revisionOf (found : Option (Record V)) : ℕ :=
  found.elim 0 (·.revision)

namespace Write

def expected : Write V → Option ℕ
  | put expected _  => expected
  | delete expected => expected
  | check expected  => expected

-- The write that leaves `after`.
def toLeave (expected : Option ℕ) : Option V → Write V
  | some value => put expected value
  | none       => delete expected

@[simp]
theorem expected_toLeave {e : Option ℕ} {after : Option V} : (toLeave e after).expected = e := by
  cases after <;> rfl

-- What a write makes of a record; a check makes nothing of it.
def effect : Option (Write V) → Option (Option V)
  | some (put _ value) => some (some value)
  | some (delete _)    => some none
  | some (check _)     => none
  | none               => none

@[simp]
theorem effect_toLeave {e : Option ℕ} {after : Option V} : effect (some (toLeave e after)) = some after := by
  cases after <;> rfl

-- The record after a batch at `revision` that does `effect` to it.
def leave (revision : ℕ) (found : Option (Record V)) : Option (Option V) → Option (Record V)
  | none       => found
  | some after => after.map (⟨revision, ·⟩)

end Write

variable {σ : Type} {κ : σ → Type} [∀ s, DecidableEq (κ s)] {β : (s : σ) → κ s → Type}

abbrev Rows (β : (s : σ) → κ s → Type) :=
  Sections fun s k => Record (β s k)

abbrev Batch (β : (s : σ) → κ s → Type) :=
  Sections fun s k => Write (β s k)

structure Store (β : (s : σ) → κ s → Type) where
  rows     : Rows β
  revision : ℕ
  stamped  : ∀ x r, rows.fetch x = some r → 0 < r.revision ∧ r.revision ≤ revision

namespace Store

def empty : Store β where
  rows     := fun _ => ∅
  revision := 0
  stamped  := fun _ _ h => by simp [Sections.fetch] at h

-- Every record the batch names is at the revision it expects.
def Meets (store : Store β) (batch : Batch β) : Prop :=
  ∀ s, ¬(batch s).Exists fun k w => ∃ n ∈ w.expected, n ≠ revisionOf (store.rows.fetch ⟨s, k⟩)

instance [Fintype σ] (store : Store β) (batch : Batch β) : Decidable (store.Meets batch) :=
  inferInstanceAs (Decidable (∀ s, ¬(batch s).Exists _))

variable {store : Store β} {batch batch' : Batch β} {x : (s : σ) × κ s}

theorem Meets.expected (h : store.Meets batch) {w : Write (β x.1 x.2)} {n : ℕ} (hw : batch.fetch x = some w)
    (hn : n ∈ w.expected) : revisionOf (store.rows.fetch x) = n := by
  by_contra he
  exact h x.1 ⟨x.2, w, hw, n, hn, fun h => he h.symm⟩

def leave (store : Store β) (batch : Batch β) : Rows β :=
  fun s => .build ((store.rows s).keys ∪ (batch s).keys) fun k =>
    Write.leave (store.revision + 1) ((store.rows s).lookup k) (Write.effect ((batch s).lookup k))

theorem fetch_leave :
    (store.leave batch).fetch x =
      Write.leave (store.revision + 1) (store.rows.fetch x) (Write.effect (batch.fetch x)) := by
  refine Finmap.lookup_build_of_support fun h => ?_
  simp only [Finset.mem_union, not_or] at h
  simp [Finmap.lookup_eq_none_of_notMem_keys h.left, Finmap.lookup_eq_none_of_notMem_keys h.right,
    Write.effect, Write.leave]

def apply (store : Store β) (batch : Batch β) : Store β where
  rows     := store.leave batch
  revision := store.revision + 1
  stamped  := fun x r h => by
    rw [fetch_leave] at h
    cases he : Write.effect (batch.fetch x)
    case none =>
      rw [he] at h
      have hs := store.stamped x r h
      omega
    case some after =>
      rw [he] at h
      obtain ⟨_, _, rfl⟩ := Option.map_eq_some_iff.mp h
      exact ⟨store.revision.succ_pos, le_rfl⟩

theorem ext_rows {store store' : Store β} (hr : store.rows = store'.rows)
    (hn : store.revision = store'.revision) : store = store' := by
  cases store
  cases store'
  cases hr
  cases hn
  rfl

-- Batches that do the same to every record, whatever they check, leave the same store.
theorem apply_congr (h : ∀ x, Write.effect (batch.fetch x) = Write.effect (batch'.fetch x)) :
    store.apply batch = store.apply batch' := by
  refine ext_rows (Sections.ext_fetch fun x => ?_) rfl
  change (store.leave batch).fetch x = (store.leave batch').fetch x
  rw [fetch_leave, fetch_leave, h]

end Store

-- `store` comes after `old`: a record that was written in between has a revision that `old` did not reach.
structure Since (old store : Store β) : Prop where
  revision : old.revision ≤ store.revision
  rows     : ∀ x, store.rows.fetch x = old.rows.fetch x ∨ store.rows.fetch x = none ∨
    ∃ r, store.rows.fetch x = some r ∧ old.revision < r.revision

namespace Since

variable {old store : Store β} {batch : Batch β} {x : (s : σ) × κ s}

theorem refl : Since store store :=
  ⟨le_rfl, fun _ => .inl rfl⟩

theorem apply (h : Since old store) : Since old (store.apply batch) where
  revision := h.revision.trans store.revision.le_succ
  rows     := fun x => by
    have hx : (store.apply batch).rows.fetch x = _ := Store.fetch_leave
    rw [hx]
    cases he : Write.effect (batch.fetch x)
    case none => exact h.rows x
    case some after =>
      cases after
      case none   => exact .inr (.inl rfl)
      case some v => exact .inr (.inr ⟨⟨_, v⟩, rfl, Nat.lt_succ_of_le h.revision⟩)

-- A record that is at its old revision is the old record.
theorem fetch_eq (h : Since old store) (hr : revisionOf (store.rows.fetch x) = revisionOf (old.rows.fetch x)) :
    store.rows.fetch x = old.rows.fetch x := by
  rcases h.rows x with hs | hn | ⟨r, hk, hlt⟩
  · exact hs
  · cases ho : old.rows.fetch x
    case none   => exact hn
    case some r =>
      have hp := old.stamped x r ho
      simp [hn, ho, revisionOf] at hr
      omega
  · cases ho : old.rows.fetch x
    case none =>
      simp [hk, ho, revisionOf] at hr
      omega
    case some r' =>
      have hp := old.stamped x r' ho
      simp [hk, ho, revisionOf] at hr
      omega

end Since
end Versioned
