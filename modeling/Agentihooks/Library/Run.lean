import Mathlib.Data.List.Basic

-- Runs of a system given by a total step function: whatever an event needs from outside (a clock
-- reading, a fresh identifier, the scheduler's choice) is part of the event, and an event the system
-- refuses leaves the state as it is.

namespace Run

variable {σ ε : Type} {step : σ → ε → σ} {s : σ} {e : ε} {es : List ε}

def run (step : σ → ε → σ) (s : σ) (es : List ε) : σ :=
  es.foldl step s

@[simp]
theorem run_nil : run step s [] = s :=
  rfl

@[simp]
theorem run_cons : run step s (e :: es) = run step (step s e) es :=
  rfl

theorem run_append {es₁ es₂ : List ε} : run step s (es₁ ++ es₂) = run step (run step s es₁) es₂ :=
  List.foldl_append

theorem run_concat : run step s (es ++ [e]) = step (run step s es) e := by
  simp [run_append]

-- `P` holds of every state the run leaves together with the event it leaves it by.
def Along (step : σ → ε → σ) (P : σ → ε → Prop) : σ → List ε → Prop
  | _, []      => True
  | s, e :: es => P s e ∧ Along step P (step s e) es

namespace Along

variable {P Q : σ → ε → Prop} {I : σ → Prop}

@[simp]
theorem nil : Along step P s [] :=
  trivial

@[simp]
theorem cons : Along step P s (e :: es) ↔ P s e ∧ Along step P (step s e) es :=
  Iff.rfl

theorem append {es₁ es₂ : List ε} :
    Along step P s (es₁ ++ es₂) ↔ Along step P s es₁ ∧ Along step P (run step s es₁) es₂ := by
  induction es₁ generalizing s
  case nil        => simp
  case cons hi    => simp [hi, and_assoc]

theorem of_forall (h : ∀ s e, P s e) : Along step P s es := by
  induction es generalizing s
  case nil     => trivial
  case cons hi => exact ⟨h _ _, hi⟩

instance decidable [∀ s e, Decidable (P s e)] : (s : σ) → (es : List ε) → Decidable (Along step P s es)
  | _, []      => .isTrue trivial
  | s, e :: es => @instDecidableAnd _ _ (inferInstance : Decidable (P s e)) (decidable (step s e) es)

-- The one induction over runs: an invariant that every admitted step preserves holds at the end.
theorem invariant (hs : ∀ s e, I s → P s e → I (step s e)) (hi : I s) (h : Along step P s es) :
    I (run step s es) := by
  induction es generalizing s
  case nil     => exact hi
  case cons ih => exact ih (hs _ _ hi h.left) h.right

-- With the invariant at hand, a property of single steps holds of every step of the run.
theorem of_invariant (hs : ∀ s e, I s → P s e → I (step s e)) (hq : ∀ s e, I s → P s e → Q s e)
    (hi : I s) (h : Along step P s es) : Along step Q s es := by
  induction es generalizing s
  case nil     => trivial
  case cons ih => exact ⟨hq _ _ hi h.left, ih (hs _ _ hi h.left) h.right⟩

theorem and (h₁ : Along step P s es) (h₂ : Along step Q s es) :
    Along step (fun s e => P s e ∧ Q s e) s es := by
  induction es generalizing s
  case nil     => trivial
  case cons ih => exact ⟨⟨h₁.left, h₂.left⟩, ih h₁.right h₂.right⟩

theorem imp (hpq : ∀ s e, P s e → Q s e) (h : Along step P s es) : Along step Q s es :=
  h.of_invariant (I := fun _ => True) (fun _ _ _ _ => trivial) (fun _ _ _ => hpq _ _) trivial

end Along

-- Unconditional form of `Along.invariant`.
theorem invariant {I : σ → Prop} (hs : ∀ s e, I s → I (step s e)) (hi : I s) : I (run step s es) :=
  Along.invariant (P := fun _ _ => True) (fun s e h _ => hs s e h) hi (.of_forall fun _ _ => trivial)

-- A relation between states that every step keeps is kept by a whole run.
theorem monotone {R : σ → σ → Prop} (hr : ∀ s, R s s) (ht : ∀ {a b c}, R a b → R b c → R a c)
    {P : σ → ε → Prop} {I : σ → Prop} (hs : ∀ s e, I s → P s e → I (step s e))
    (hm : ∀ s e, I s → P s e → R s (step s e)) (hi : I s) (h : Along step P s es) :
    R s (run step s es) := by
  induction es generalizing s
  case nil     => exact hr s
  case cons ih => exact ht (hm _ _ hi h.left) (ih (hs _ _ hi h.left) h.right)

end Run
