import Agentihooks.Mutation.Batch

-- An atomic batch that is refused in part is taken back, all but its meta data.

namespace Mutation

variable {δ μ : Type} {c : Context} {s t : State δ μ} {op : Op δ μ} {ops : List (Op δ μ)} {w : Warning}
variable {rejected : List String} {p : Pass δ μ}

-- An operation only ever appends to what waits for the end of the mutation.
structure Appends (s t : State δ μ) : Prop where
  events  : s.events <+: t.events
  dropped : s.dropped <+: t.dropped
  refused : s.refused <+: t.refused

namespace Appends

theorem refl : Appends s s :=
  ⟨List.prefix_rfl, List.prefix_rfl, List.prefix_rfl⟩

theorem of_eq (he : t.events = s.events) (hd : t.dropped = s.dropped) (hr : t.refused = s.refused) : Appends s t :=
  ⟨he ▸ List.prefix_rfl, hd ▸ List.prefix_rfl, hr ▸ List.prefix_rfl⟩

theorem trans {u : State δ μ} (h : Appends s t) (h' : Appends t u) : Appends s u :=
  ⟨h.events.trans h'.events, h.dropped.trans h'.dropped, h.refused.trans h'.refused⟩

theorem record {by_ kind target : String} {extra : List (String × String)} :
    Appends s (s.record c by_ kind target extra) :=
  ⟨List.prefix_append _ _, List.prefix_rfl, List.prefix_rfl⟩

theorem refuse {text : String} : Appends s (s.refuse text) :=
  ⟨List.prefix_rfl, List.prefix_rfl, List.prefix_append _ _⟩

theorem touch {by_ : String} : Appends s (s.touch c by_) := by
  unfold State.touch
  split
  case h_1 => exact refl
  case h_2 => exact of_eq rfl rfl rfl

theorem perform : Appends s (s.perform c op).2 := by
  unfold State.perform
  split
  case h_1 =>
    change Appends s ((State.record c _ _ _ _ _).touch c _)
    refine Appends.trans ?_ (record.trans touch)
    exact of_eq rfl rfl rfl
  case h_2 =>
    unfold State.leave
    split
    case isTrue =>
      change Appends s (State.record c _ _ _ _ _)
      refine Appends.trans ?_ record
      exact of_eq rfl rfl rfl
    case isFalse => exact refuse
  case h_3 =>
    unfold State.planAdd
    dsimp only
    split
    case h_1 =>
      split
      case isTrue => exact of_eq rfl rfl rfl
      case isFalse =>
        change Appends s (State.refuse _ _)
        refine Appends.trans ?_ refuse
        exact of_eq rfl rfl rfl
    case h_2 =>
      change Appends s (State.record c _ _ _ _ _)
      refine Appends.trans ?_ record
      exact of_eq rfl rfl rfl
  case h_4 => exact ⟨List.prefix_append _ _, List.prefix_append _ _, List.prefix_append _ _⟩

theorem recovered : Appends s (s.recovered c op) :=
  ⟨List.prefix_append _ _, List.prefix_rfl, List.prefix_rfl⟩

theorem raised {l : List Warning} : Appends s (l.foldl (fun s w => s.raiseWarning c w) s) := by
  induction l generalizing s
  case nil       => exact refl
  case cons w l ih => exact Appends.trans (t := s.raiseWarning c w) (of_eq rfl rfl rfl) ih

theorem next : Appends p.state (p.next c op).state := by
  have hs : Appends p.state (if (p.state.perform c op).1 then (p.state.perform c op).2.recovered c op
      else (p.state.perform c op).2) := by
    split
    case isTrue  => exact perform.trans recovered
    case isFalse => exact perform
  have ha {s : State δ μ} : Appends s s.setAlerts := of_eq rfl rfl rfl
  exact (hs.trans ha).trans raised

end Appends

-- Some operation of the batch was refused.
def Refused (c : Context) (s : State δ μ) (rejected : List String) (ops : List (Op δ μ)) : Prop :=
  (performed c s rejected ops).rejected ≠ rejected

end Mutation
