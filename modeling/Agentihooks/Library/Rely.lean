import Agentihooks.Library.Interleaved

-- What holds of a program while others change the shared state: between two of its commands they may take the state
-- anywhere a relation allows, and each command has to keep to the relation itself. A program's continuation is judged by
-- the state it is reached in and every later one.

namespace Interleaved

variable {ι α β γ σ ω : Type} {ρ : ι → Type}

-- An invariant of the shared state, and how it may change.
structure Rely (σ : Type) where
  inv   : σ → Prop
  rel   : σ → σ → Prop
  refl  : ∀ s, rel s s
  trans : ∀ s₁ s₂ s₃, rel s₁ s₂ → rel s₂ s₃ → rel s₁ s₃

namespace Steps

-- From `s` on, every command that the program comes to is issued where `P` allows it, and its result is as `Q` says.
def Safe (exec : (i : ι) → ω → σ → Option (σ × ρ i)) (g : Rely σ) (P : σ → ι → Prop) (Q : σ → α → Prop) :
    Steps ρ α → σ → Prop
  | done a,     s => ∀ s', g.inv s' → g.rel s s' → Q s' a
  | fail,       _ => True
  | ask i next, s => ∀ s', g.inv s' → g.rel s s' → P s' i ∧ ∀ choice s'' r, exec i choice s' = some (s'', r) →
      g.inv s'' → g.rel s' s'' → (next r).Safe exec g P Q s''

section Safe

variable {exec : (i : ι) → ω → σ → Option (σ × ρ i)} {g : Rely σ} {P : σ → ι → Prop} {Q Q' : σ → α → Prop}
variable {S : σ → β → Prop} {p : Steps ρ α} {f : α → Steps ρ β} {s s' : σ} {i : ι} {a : α}

theorem safe_fail : (fail : Steps ρ α).Safe exec g P Q s :=
  trivial

theorem safe_pure : (pure a : Steps ρ α).Safe exec g P Q s ↔ ∀ s', g.inv s' → g.rel s s' → Q s' a :=
  Iff.rfl

theorem safe_ask {next : ρ i → Steps ρ α} (h : ∀ s', g.inv s' → g.rel s s' → P s' i ∧ ∀ choice s'' r,
    exec i choice s' = some (s'', r) → g.inv s'' → g.rel s' s'' → (next r).Safe exec g P Q s'') :
    (perform i >>= next).Safe exec g P Q s :=
  h

theorem Safe.later (hp : p.Safe exec g P Q s) (hl : g.rel s s') : p.Safe exec g P Q s' := by
  cases p with
  | done a     => exact fun s'' hs hl' => hp s'' hs (g.trans _ _ _ hl hl')
  | fail       => trivial
  | ask i next => exact fun s'' hs hl' => hp s'' hs (g.trans _ _ _ hl hl')

theorem Safe.imp (hq : ∀ s' a, g.rel s s' → Q s' a → Q' s' a) (hp : p.Safe exec g P Q s) : p.Safe exec g P Q' s := by
  induction p generalizing s with
  | done a        => exact fun s' hs hl => hq s' a hl (hp s' hs hl)
  | fail          => trivial
  | ask i next ih =>
    intro s' hs hl
    obtain ⟨hi, hnext⟩ := hp s' hs hl
    refine ⟨hi, fun choice s'' r hx hs'' hl'' => ?_⟩
    exact ih r (fun s₃ a hl₃ hqa => hq s₃ a (g.trans _ _ _ (g.trans _ _ _ hl hl'') hl₃) hqa) (hnext choice s'' r hx hs'' hl'')

theorem Safe.bind (hs : g.inv s) (hp : p.Safe exec g P Q s)
    (hf : ∀ a s', g.inv s' → g.rel s s' → Q s' a → (f a).Safe exec g P S s') : (p >>= f).Safe exec g P S s := by
  change (p.bind f).Safe exec g P S s
  induction p generalizing s with
  | done a        => exact hf a s hs (g.refl s) (hp s hs (g.refl s))
  | fail          => trivial
  | ask i next ih =>
    intro s' hs' hl
    obtain ⟨hi, hnext⟩ := hp s' hs' hl
    refine ⟨hi, fun choice s'' r hx hs'' hl'' => ih r hs'' (hnext choice s'' r hx hs'' hl'') fun a s₃ hs₃ hl₃ => ?_⟩
    exact hf a s₃ hs₃ (g.trans _ _ _ (g.trans _ _ _ hl hl'') hl₃)

theorem Safe.map {h : α → β} (hp : p.Safe exec g P Q s) (hh : ∀ s' a, g.rel s s' → Q s' a → S s' (h a)) :
    (h <$> p).Safe exec g P S s := by
  change (p.bind fun a => done (h a)).Safe exec g P S s
  induction p generalizing s with
  | done a        => exact fun s' hs hl => hh s' a hl (hp s' hs hl)
  | fail          => trivial
  | ask i next ih =>
    intro s' hs hl
    obtain ⟨hi, hnext⟩ := hp s' hs hl
    refine ⟨hi, fun choice s'' r hx hs'' hl'' => ?_⟩
    exact ih r (hnext choice s'' r hx hs'' hl'') fun s₃ a hl₃ => hh s₃ a (g.trans _ _ _ (g.trans _ _ _ hl hl'') hl₃)

theorem safe_ensure {q : Prop} [Decidable q] {next : Unit → Steps ρ α} (h : q → (next ()).Safe exec g P Q s) :
    (ensure q >>= next).Safe exec g P Q s := by
  unfold ensure
  split
  case isTrue hq => exact h hq
  case isFalse   => trivial

theorem safe_ensure_last {q : Prop} [Decidable q] {Q : σ → Unit → Prop} (h : q → ∀ s', g.inv s' → g.rel s s' → Q s' ()) :
    (ensure q : Steps ρ Unit).Safe exec g P Q s := by
  unfold ensure
  split
  case isTrue hq => exact h hq
  case isFalse   => trivial

-- What a program keeps to whatever the replies are, it keeps to whatever the others do.
theorem Safe.of_keeps {P' : ι → Prop} {S : α → Prop} (h : p.Keeps (fun _ _ => True) P' S) (hp : ∀ s i, P' i → P s i)
    (hq : ∀ s a, S a → Q s a) : p.Safe exec g P Q s := by
  induction p generalizing s with
  | done a        => exact fun s' _ _ => hq s' a h
  | fail          => trivial
  | ask i next ih => exact fun s' _ _ => ⟨hp s' i h.left, fun choice s'' r _ _ _ => ih r (h.right r trivial)⟩

theorem safe_each {as : List α} {T : σ → α → β → Prop} (hs : g.inv s)
    (ht : ∀ s s' a b, g.rel s s' → T s a b → T s' a b)
    (hf : ∀ a ∈ as, ∀ s', g.inv s' → g.rel s s' → (f a).Safe exec g P (fun s b => T s a b) s') :
    (each f as).Safe exec g P (fun s bs => List.Forall₂ (T s) as bs) s := by
  induction as generalizing s with
  | nil          => exact safe_pure.mpr fun _ _ _ => .nil
  | cons a as ih =>
    refine (hf a List.mem_cons_self s hs (g.refl s)).bind hs fun b s' hs' hl hb => ?_
    have hrest : (each f as).Safe exec g P (fun s bs => List.Forall₂ (T s) as bs) s' :=
      ih hs' fun a ha s'' hs'' hl'' => hf a (List.mem_cons_of_mem _ ha) s'' hs'' (g.trans _ _ _ hl hl'')
    refine hrest.map fun s'' bs hl'' hbs => ?_
    exact .cons (ht s' s'' a b hl'' hb) hbs

end Safe

end Steps

section System

variable {program : γ → Steps ρ α} {exec : (i : ι) → ω → σ → Option (σ × ρ i)} {g : Rely σ}
variable {M : γ → ι → σ → Prop} {P : γ → σ → ι → Prop} {Q : γ → σ → α → Prop}
variable {w : World σ γ ρ α} {e : Event γ ω} {es : List (Event γ ω)} {id : ℕ} {call : γ} {choice : ω} {i : ι}

-- Where the step performs a command, `M` allows the command there.
def Meets (M : γ → ι → σ → Prop) (w : World σ γ ρ α) : Event γ ω → Prop
  | .turn id _ =>
    match w.calls id with
    | some ⟨call, .ask i _⟩ => M call i w.shared
    | _                     => True
  | _          => True

instance [∀ call i s, Decidable (M call i s)] : Decidable (Meets M w e) := by
  unfold Meets
  split
  · split <;> infer_instance
  · infer_instance

theorem meets_true : Meets (fun _ _ _ => True) w e := by
  unfold Meets
  split
  · split <;> trivial
  · trivial

theorem meets_of_at (hm : Meets M w (.turn id choice)) (hi : w.At id call i) : M call i w.shared := by
  obtain ⟨next, hc⟩ := hi
  simpa only [Meets, hc] using hm

-- A command that is issued where it may be keeps the invariant, and changes the state as it may be changed.
def Guarantees (exec : (i : ι) → ω → σ → Option (σ × ρ i)) (g : Rely σ) (M : γ → ι → σ → Prop) (P : γ → σ → ι → Prop) : Prop :=
  ∀ call i choice s s' r, g.inv s → P call s i → M call i s → exec i choice s = some (s', r) → g.inv s' ∧ g.rel s s'

structure Secure (exec : (i : ι) → ω → σ → Option (σ × ρ i)) (g : Rely σ) (P : γ → σ → ι → Prop) (Q : γ → σ → α → Prop)
    (w : World σ γ ρ α) : Prop where
  inv   : g.inv w.shared
  calls : ∀ id running, w.calls id = some running → running.rest.Safe exec g (P running.call) (Q running.call) w.shared

namespace Secure

theorem start {s : σ} (hs : g.inv s) : Secure exec g P Q (World.start s : World σ γ ρ α) where
  inv   := hs
  calls := by simp [World.start]

theorem update {running : Option (Running γ ρ α)} {s : σ} (h : Secure exec g P Q w) (hs : g.inv s)
    (hl : g.rel w.shared s) (hr : ∀ r ∈ running, r.rest.Safe exec g (P r.call) (Q r.call) s) :
    Secure exec g P Q ⟨s, Function.update w.calls id running⟩ where
  inv   := hs
  calls := by
    intro id' running' hc
    by_cases hid : id' = id
    case pos =>
      subst hid
      simp only [Function.update_self] at hc
      exact hr running' hc
    case neg =>
      simp only [Function.update_of_ne hid] at hc
      exact (h.calls id' running' hc).later hl

theorem step (hg : Guarantees exec g M P)
    (hp : ∀ call s, g.inv s → (program call).Safe exec g (P call) (Q call) s)
    (h : Secure exec g P Q w) (hm : Meets M w e) :
    Secure exec g P Q (step program exec w e) ∧ g.rel w.shared (step program exec w e).shared := by
  cases e with
  | call id call   =>
    simp only [Interleaved.step]
    split
    case isTrue  => exact ⟨h, g.refl _⟩
    case isFalse =>
      refine ⟨h.update h.inv (g.refl _) fun r hr => ?_, g.refl _⟩
      cases hr
      exact hp call _ h.inv
  | stop id        => exact ⟨h.update h.inv (g.refl _) (by simp), g.refl _⟩
  | turn id choice =>
    simp only [Interleaved.step, World.turn]
    split
    case h_1           => exact ⟨h, g.refl _⟩
    case h_2           => exact ⟨h.update h.inv (g.refl _) (by simp), g.refl _⟩
    case h_3           => exact ⟨h.update h.inv (g.refl _) (by simp), g.refl _⟩
    case h_4 call i next hc =>
      split
      case h_1              => exact ⟨h, g.refl _⟩
      case h_2 s reply hx   =>
        obtain ⟨hi, hnext⟩ := h.calls id _ hc w.shared h.inv (g.refl _)
        obtain ⟨hs, hl⟩ := hg call i choice _ _ _ h.inv hi (meets_of_at hm ⟨next, hc⟩) hx
        refine ⟨h.update hs hl fun r hr => ?_, hl⟩
        cases hr
        exact hnext choice _ _ hx hs hl

theorem run (hg : Guarantees exec g M P)
    (hp : ∀ call s, g.inv s → (program call).Safe exec g (P call) (Q call) s)
    (h : Secure exec g P Q w) (hm : Run.Along (Interleaved.step program exec) (Meets M) w es) :
    Secure exec g P Q (Run.run (Interleaved.step program exec) w es) :=
  hm.invariant (fun _ _ h hm => (h.step hg hp hm).left) h

theorem command (h : Secure exec g P Q w) (hi : w.At id call i) : P call w.shared i := by
  obtain ⟨next, hc⟩ := hi
  exact (h.calls id _ hc w.shared h.inv (g.refl _)).left

end Secure

end System

end Interleaved
