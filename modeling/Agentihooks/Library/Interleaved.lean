import Mathlib.Logic.Function.Basic
import Agentihooks.Library.Run

-- Programs whose commands interleave. A program issues one command after another and goes on with the replies; any
-- number of calls run such programs over one shared state, a command at a time, and each may stop at any point. What a
-- command may do is a matter of its `exec`, which may leave a choice to the environment.

namespace Interleaved

variable {ι α β γ σ ω : Type} {ρ : ι → Type}

inductive Steps (ρ : ι → Type) (α : Type)
  | done (a : α)
  | fail
  | ask  (i : ι) (next : ρ i → Steps ρ α)

namespace Steps

def bind : Steps ρ α → (α → Steps ρ β) → Steps ρ β
  | done a,     f => f a
  | fail,       _ => fail
  | ask i next, f => ask i fun r => (next r).bind f

instance : Monad (Steps ρ) where
  pure := done
  bind := bind

def perform (i : ι) : Steps ρ (ρ i) :=
  ask i done

def ensure (q : Prop) [Decidable q] : Steps ρ Unit :=
  if q then pure () else fail

-- `try: ... finally: ...`
def followedBy (p : Steps ρ α) (cleanup : Steps ρ Unit) : Steps ρ α :=
  match p with
  | done a     => cleanup.bind fun _ => done a
  | fail       => cleanup.bind fun _ => fail
  | ask i next => ask i fun r => (next r).followedBy cleanup

def each (f : α → Steps ρ β) : List α → Steps ρ (List β)
  | []      => pure []
  | a :: as => do
    let b ← f a
    let bs ← each f as
    return b :: bs

-- Every command that the program can come to satisfies `P`, and every result `Q`, as long as the replies are as `R` says.
def Keeps (R : (i : ι) → ρ i → Prop) (P : ι → Prop) (Q : α → Prop) : Steps ρ α → Prop
  | done a     => Q a
  | fail       => True
  | ask i next => P i ∧ ∀ r, R i r → (next r).Keeps R P Q

section Keeps

variable {R : (i : ι) → ρ i → Prop} {P : ι → Prop} {Q Q' : α → Prop} {S : β → Prop}
variable {p : Steps ρ α} {f : α → Steps ρ β} {i : ι} {a : α}

@[simp]
theorem keeps_done : (done a : Steps ρ α).Keeps R P Q ↔ Q a :=
  Iff.rfl

@[simp]
theorem keeps_pure : (pure a : Steps ρ α).Keeps R P Q ↔ Q a :=
  Iff.rfl

@[simp]
theorem keeps_fail : (fail : Steps ρ α).Keeps R P Q :=
  trivial

@[simp]
theorem keeps_perform {Q : ρ i → Prop} : (perform i : Steps ρ (ρ i)).Keeps R P Q ↔ P i ∧ ∀ r, R i r → Q r :=
  Iff.rfl

theorem Keeps.bind (hp : p.Keeps R P Q) (hf : ∀ a, Q a → (f a).Keeps R P S) : (p >>= f).Keeps R P S := by
  change (p.bind f).Keeps R P S
  induction p with
  | done a        => exact hf a hp
  | fail          => trivial
  | ask i next ih => exact ⟨hp.left, fun r hr => ih r (hp.right r hr)⟩

theorem Keeps.map {g : α → β} (hp : p.Keeps R P Q) (hg : ∀ a, Q a → S (g a)) : (g <$> p).Keeps R P S :=
  hp.bind hg

@[simp]
theorem keeps_ensure {q : Prop} [Decidable q] {Q : Unit → Prop} :
    (ensure q : Steps ρ Unit).Keeps R P Q ↔ (q → Q ()) := by
  unfold ensure
  split <;> simp [*]

theorem Keeps.followedBy {cleanup : Steps ρ Unit} (hp : p.Keeps R P Q) (hc : cleanup.Keeps R P fun _ => True) :
    (p.followedBy cleanup).Keeps R P Q := by
  induction p with
  | done a        => exact hc.bind fun _ _ => hp
  | fail          => exact hc.bind fun _ _ => trivial
  | ask i next ih => exact ⟨hp.left, fun r hr => ih r (hp.right r hr)⟩

theorem keeps_each {as : List α} (hf : ∀ a ∈ as, (f a).Keeps R P S) : (each f as).Keeps R P fun bs => ∀ b ∈ bs, S b := by
  induction as with
  | nil          => exact List.forall_mem_nil _
  | cons a as ih =>
    have hrest : (each f as).Keeps R P fun bs => ∀ b ∈ bs, S b := ih fun a ha => hf a (List.mem_cons_of_mem _ ha)
    exact (hf a List.mem_cons_self).bind fun b hb => hrest.bind fun bs hbs => List.forall_mem_cons.mpr ⟨hb, hbs⟩

theorem Keeps.imp (h : ∀ a, Q a → Q' a) (hp : p.Keeps R P Q) : p.Keeps R P Q' := by
  induction p with
  | done a        => exact h a hp
  | fail          => trivial
  | ask i next ih => exact ⟨hp.left, fun r hr => ih r (hp.right r hr)⟩

end Keeps

-- A result that the reply to a command settles is as `A` says.
def Ends (A : (i : ι) → ρ i → α → Prop) : Steps ρ α → Prop
  | ask i next => ∀ r, (∀ a, next r = done a → A i r a) ∧ (next r).Ends A
  | _          => True

-- The program comes to at most `n` commands that satisfy `p`.
def AtMost (p : ι → Prop) [DecidablePred p] : Steps ρ α → ℕ → Prop
  | ask i next, n => if p i then ∃ m, n = m + 1 ∧ ∀ r, (next r).AtMost p m else ∀ r, (next r).AtMost p n
  | _,          _ => True

section AtMost

variable {p : ι → Prop} [DecidablePred p] {q : Steps ρ α} {i : ι} {n m : ℕ}

theorem atMost_pure {a : α} : (pure a : Steps ρ α).AtMost p n :=
  trivial

theorem atMost_ask {next : ρ i → Steps ρ α} (hi : ¬ p i) (hn : ∀ r, (next r).AtMost p n) :
    (perform i >>= next).AtMost p n := by
  change (ask i next).AtMost p n
  rw [AtMost, if_neg hi]
  exact hn

theorem AtMost.succ (h : q.AtMost p n) : q.AtMost p (n + 1) := by
  induction q generalizing n with
  | done          => trivial
  | fail          => trivial
  | ask i next ih =>
    rw [AtMost] at h ⊢
    split
    case isTrue hp  =>
      rw [if_pos hp] at h
      obtain ⟨m, rfl, hnext⟩ := h
      exact ⟨m + 1, rfl, fun r => ih r (hnext r)⟩
    case isFalse hp =>
      rw [if_neg hp] at h
      exact fun r => ih r (h r)

theorem AtMost.mono (h : q.AtMost p n) (hm : n ≤ m) : q.AtMost p m :=
  Nat.le.rec h (fun _ ih => ih.succ) hm

theorem atMost_counted {next : ρ i → Steps ρ α} (hn : ∀ r, (next r).AtMost p n) :
    (perform i >>= next).AtMost p (n + 1) := by
  change (ask i next).AtMost p (n + 1)
  rw [AtMost]
  split
  case isTrue  => exact ⟨n, rfl, hn⟩
  case isFalse => exact fun r => (hn r).succ

theorem atMost_ensure {c : Prop} [Decidable c] {next : Unit → Steps ρ α} (hn : (next ()).AtMost p n) :
    (ensure c >>= next).AtMost p n := by
  unfold ensure
  split
  case isTrue  => exact hn
  case isFalse => trivial

theorem atMost_ensure_last {c : Prop} [Decidable c] : (ensure c : Steps ρ Unit).AtMost p n := by
  unfold ensure
  split <;> trivial

theorem AtMost.map {g : α → β} (hq : q.AtMost p n) : (g <$> q).AtMost p n := by
  change (q.bind fun a => done (g a)).AtMost p n
  induction q generalizing n with
  | done          => trivial
  | fail          => trivial
  | ask i next ih =>
    simp only [Steps.bind, AtMost] at hq ⊢
    split
    case isTrue hp  =>
      rw [if_pos hp] at hq
      obtain ⟨m, rfl, hnext⟩ := hq
      exact ⟨m, rfl, fun r => ih r (hnext r)⟩
    case isFalse hp =>
      rw [if_neg hp] at hq
      exact fun r => ih r (hq r)

end AtMost

end Steps

-- A call and what is left of its program.
structure Running (γ : Type) (ρ : ι → Type) (α : Type) where
  call : γ
  rest : Steps ρ α

structure World (σ γ : Type) (ρ : ι → Type) (α : Type) where
  shared : σ
  calls  : ℕ → Option (Running γ ρ α)

def World.start (shared : σ) : World σ γ ρ α where
  shared := shared
  calls  := fun _ => none

-- Calls begin, issue their next command with the environment's choice, and stop where they are.
inductive Event (γ ω : Type)
  | call (id : ℕ) (call : γ)
  | turn (id : ℕ) (choice : ω)
  | stop (id : ℕ)

section System

variable (program : γ → Steps ρ α) (exec : (i : ι) → ω → σ → Option (σ × ρ i))

namespace World

variable (w : World σ γ ρ α) (id : ℕ)

def set (running : Option (Running γ ρ α)) : World σ γ ρ α :=
  { w with calls := Function.update w.calls id running }

-- The call's next command, or its return in a step of its own. A choice that the state does not offer changes nothing.
def turn (choice : ω) : World σ γ ρ α × Option α :=
  match w.calls id with
  | none                     => (w, none)
  | some ⟨_, .done a⟩        => (w.set id none, some a)
  | some ⟨_, .fail⟩          => (w.set id none, none)
  | some ⟨call, .ask i next⟩ =>
    match exec i choice w.shared with
    | none                 => (w, none)
    | some (shared, reply) => ({ shared := shared, calls := Function.update w.calls id (some ⟨call, next reply⟩) }, none)

end World

def step (w : World σ γ ρ α) : Event γ ω → World σ γ ρ α
  | .call id call   => if (w.calls id).isSome then w else w.set id (some ⟨call, program call⟩)
  | .turn id choice => (w.turn exec id choice).1
  | .stop id        => w.set id none

variable {program exec} {w : World σ γ ρ α} {e : Event γ ω} {es : List (Event γ ω)} {id : ℕ} {call : γ} {choice : ω}

-- The next command of a call.
def World.At (w : World σ γ ρ α) (id : ℕ) (call : γ) (i : ι) : Prop :=
  ∃ next, w.calls id = some ⟨call, .ask i next⟩

-- The only change to what is shared is the effect of a call's next command.
theorem shared_step (w : World σ γ ρ α) (e : Event γ ω) :
    (step program exec w e).shared = w.shared ∨
    ∃ id choice call i reply, e = .turn id choice ∧ w.At id call i ∧
      exec i choice w.shared = some ((step program exec w e).shared, reply) := by
  cases e with
  | call id call   =>
    simp only [step]
    split <;> exact .inl rfl
  | stop id        => exact .inl rfl
  | turn id choice =>
    simp only [step, World.turn]
    split
    case h_1           => exact .inl rfl
    case h_2           => exact .inl rfl
    case h_3           => exact .inl rfl
    case h_4 call i next hc =>
      split
      case h_1                 => exact .inl rfl
      case h_2 shared reply hx => exact .inr ⟨id, choice, call, i, reply, rfl, ⟨next, hc⟩, hx⟩

-- What the commands and results of every program satisfy, the commands and results that are left satisfy.
def Fits (R : (i : ι) → ρ i → Prop) (P : γ → ι → Prop) (Q : γ → α → Prop) (w : World σ γ ρ α) : Prop :=
  ∀ id running, w.calls id = some running → running.rest.Keeps R (P running.call) (Q running.call)

section Fits

variable {R : (i : ι) → ρ i → Prop} {P : γ → ι → Prop} {Q : γ → α → Prop}

theorem Fits.start {shared : σ} : Fits R P Q (World.start shared : World σ γ ρ α) := by
  simp [Fits, World.start]

theorem Fits.update {running : Option (Running γ ρ α)} {shared : σ} (h : Fits R P Q w)
    (hr : ∀ r ∈ running, r.rest.Keeps R (P r.call) (Q r.call)) :
    Fits R P Q ⟨shared, Function.update w.calls id running⟩ := by
  intro id' running' hc
  by_cases hid : id' = id
  case pos =>
    subst hid
    simp only [Function.update_self] at hc
    exact hr running' hc
  case neg =>
    simp only [Function.update_of_ne hid] at hc
    exact h id' running' hc

theorem Fits.step (hp : ∀ call, (program call).Keeps R (P call) (Q call))
    (hr : ∀ i choice s s' r, exec i choice s = some (s', r) → R i r) (h : Fits R P Q w) :
    Fits R P Q (step program exec w e) := by
  cases e with
  | call id call   =>
    simp only [Interleaved.step]
    split
    case isTrue  => exact h
    case isFalse =>
      refine h.update fun r hr => ?_
      cases hr
      exact hp call
  | stop id        => exact h.update (by simp)
  | turn id choice =>
    simp only [Interleaved.step, World.turn]
    split
    case h_1           => exact h
    case h_2           => exact h.update (by simp)
    case h_3           => exact h.update (by simp)
    case h_4 call i next hc =>
      split
      case h_1                 => exact h
      case h_2 shared reply hx =>
        refine h.update fun r hrunning => ?_
        cases hrunning
        exact (h id _ hc).right reply (hr i choice _ _ _ hx)

theorem Fits.run (hp : ∀ call, (program call).Keeps R (P call) (Q call))
    (hr : ∀ i choice s s' r, exec i choice s = some (s', r) → R i r) (h : Fits R P Q w) :
    Fits R P Q (Run.run (Interleaved.step program exec) w es) :=
  Run.invariant (fun _ _ h => h.step hp hr) h

theorem Fits.command {i : ι} (h : Fits R P Q w) (hi : w.At id call i) : P call i := by
  obtain ⟨next, hc⟩ := hi
  exact (h id _ hc).left

theorem Fits.answer {answer : α} (h : Fits R P Q w) (ha : (w.turn exec id choice).2 = some answer) :
    ∃ call, w.calls id = some ⟨call, .done answer⟩ ∧ Q call answer := by
  simp only [World.turn] at ha
  split at ha
  case h_1              => cases ha
  case h_2 call a hc    =>
    cases ha
    exact ⟨call, hc, h id _ hc⟩
  case h_3              => cases ha
  case h_4              => split at ha <;> cases ha

end Fits

section Count

variable (program exec) (p : ι → Prop) [DecidablePred p] (id : ℕ)

-- Whether the step performs a command of the call that satisfies `p`.
def Performs (w : World σ γ ρ α) : Event γ ω → Bool
  | .turn id' choice =>
    match w.calls id with
    | some ⟨_, .ask i _⟩ => id' = id ∧ p i ∧ (exec i choice w.shared).isSome
    | _                  => false
  | _                => false

-- How often the call that runs does so before it ends.
def performed (w : World σ γ ρ α) : List (Event γ ω) → ℕ
  | []      => 0
  | e :: es =>
    if (w.calls id).isNone then 0
    else (if Performs exec p id w e then 1 else 0) + performed (step program exec w e) es

variable {program exec p id}

theorem performed_of_none (hc : w.calls id = none) : performed program exec p id w es = 0 := by
  cases es <;> simp [performed, hc]

-- What a step does about a call: nothing, its end, or its next command.
inductive Goes (program : γ → Steps ρ α) (exec : (i : ι) → ω → σ → Option (σ × ρ i)) (p : ι → Prop) [DecidablePred p] (id : ℕ)
    (w : World σ γ ρ α) (e : Event γ ω) (running : Running γ ρ α) : Prop
  | stays   : (step program exec w e).calls id = some running → Performs exec p id w e = false → Goes program exec p id w e running
  | ends    : (step program exec w e).calls id = none → Performs exec p id w e = false → Goes program exec p id w e running
  | command : (i : ι) → (next : ρ i → Steps ρ α) → (r : ρ i) → running.rest = .ask i next →
      (step program exec w e).calls id = some ⟨running.call, next r⟩ → Performs exec p id w e = decide (p i) →
      Goes program exec p id w e running

theorem goes {running : Running γ ρ α} (hc : w.calls id = some running) : Goes program exec p id w e running := by
  obtain ⟨call, rest⟩ := running
  cases e with
  | call id' call'   =>
    refine .stays ?_ rfl
    simp only [step]
    split
    case isTrue  => exact hc
    case isFalse hn =>
      have hne : id ≠ id' := fun he => hn (by simp [← he, hc])
      simp only [World.set, Function.update_of_ne hne, hc]
  | stop id'         =>
    by_cases hid : id = id'
    case pos => exact .ends (by simp [step, World.set, hid]) rfl
    case neg => exact .stays (by simp [step, World.set, Function.update_of_ne hid, hc]) rfl
  | turn id' choice  =>
    by_cases hid : id' = id
    case neg =>
      refine .stays ?_ ?_
      · simp only [step, World.turn]
        have hne : id ≠ id' := fun he => hid he.symm
        split
        case h_1 => exact hc
        case h_2 => simp only [World.set, Function.update_of_ne hne, hc]
        case h_3 => simp only [World.set, Function.update_of_ne hne, hc]
        case h_4 =>
          split
          case h_1 => exact hc
          case h_2 => simp only [Function.update_of_ne hne, hc]
      · simp only [Performs]
        split <;> simp [hid]
    case pos =>
      subst hid
      cases rest with
      | done a     => exact .ends (by simp [step, World.turn, hc, World.set]) (by simp [Performs, hc])
      | fail       => exact .ends (by simp [step, World.turn, hc, World.set]) (by simp [Performs, hc])
      | ask i next =>
        cases hx : exec i choice w.shared with
        | none       => exact .stays (by simp [step, World.turn, hc, hx]) (by simp [Performs, hc, hx])
        | some found => exact .command i next found.2 rfl (by simp [step, World.turn, hc, hx]) (by simp [Performs, hc, hx])

theorem performed_le {running : Running γ ρ α} {n : ℕ} (hc : w.calls id = some running) (hn : running.rest.AtMost p n) :
    performed program exec p id w es ≤ n := by
  induction es generalizing w running n with
  | nil          => exact Nat.zero_le n
  | cons e es ih =>
    simp only [performed, hc, Option.isNone_some, Bool.false_eq_true, if_false]
    have hgoes : Goes program exec p id w e running := goes hc
    cases hgoes with
    | stays hs hp               =>
      simp only [hp, Bool.false_eq_true, if_false, Nat.zero_add]
      exact ih hs hn
    | ends hs hp                => simp [hp, performed_of_none hs]
    | command i next r hr hs hp =>
      rw [hr] at hn
      unfold Steps.AtMost at hn
      by_cases hi : p i
      case pos =>
        rw [if_pos hi] at hn
        obtain ⟨m, rfl, hnext⟩ := hn
        simp only [hp, hi, decide_true, if_true, Nat.add_comm 1]
        exact Nat.succ_le_succ (ih hs (hnext r))
      case neg =>
        rw [if_neg hi] at hn
        simp only [hp, hi, decide_false, Bool.false_eq_true, if_false, Nat.zero_add]
        exact ih hs (hn r)

end Count

end System

end Interleaved
