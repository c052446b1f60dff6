import Mathlib.Logic.Function.Basic
import Mathlib.Tactic.SplitIfs

-- Records whose fields may each be absent, every field with values of its own type, and the writing of one record's
-- fields into another.

abbrev PartialRecord {F : Type} (V : F → Type) :=
  (f : F) → Option (V f)

namespace PartialRecord

variable {F : Type} {V : F → Type} {r patch : PartialRecord V} {f : F}

def empty : PartialRecord V :=
  fun _ => none

-- The fields of `patch`, and those of the record that `patch` leaves out.
def patched (r patch : PartialRecord V) : PartialRecord V :=
  fun f => (patch f).or (r f)

theorem patched_some {v : V f} (h : patch f = some v) : r.patched patch f = some v := by
  simp [patched, h]

theorem patched_none (h : patch f = none) : r.patched patch f = r f := by
  simp [patched, h]

@[simp]
theorem patched_empty : r.patched empty = r :=
  rfl

section Changed

variable [∀ f, DecidableEq (V f)]

-- The fields of `patch` whose value is another than the record's.
def changed (r patch : PartialRecord V) : PartialRecord V :=
  fun f => if patch f = r f then none else patch f

theorem changed_eq_some {v : V f} : r.changed patch f = some v ↔ patch f = some v ∧ r f ≠ some v := by
  unfold changed
  split_ifs with h
  case pos => simp [← h]
  case neg =>
    refine ⟨fun hv => ⟨hv, fun hr => h (hv.trans hr.symm)⟩, And.left⟩

theorem changed_eq_none : r.changed patch f = none ↔ patch f = none ∨ patch f = r f := by
  unfold changed
  split_ifs with h
  · simp [h]
  · simp [h]

-- What is left out of the changes is what the record holds already.
theorem patched_changed : r.patched (r.changed patch) = r.patched patch := by
  funext f
  by_cases h : patch f = r f
  case pos => cases hr : r f <;> simp [patched, changed, h, hr]
  case neg => simp [patched, changed, h]

end Changed

section Update

variable [DecidableEq F]

theorem patched_update {g : F} {v : Option (V g)} (h : f ≠ g) :
    r.patched (Function.update patch g v) f = r.patched patch f := by
  simp [patched, Function.update_of_ne h]

theorem patched_update_self {g : F} {v : V g} : r.patched (Function.update patch g (some v)) g = some v := by
  simp [patched]

end Update

end PartialRecord
