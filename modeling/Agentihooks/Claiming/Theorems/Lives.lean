import Mathlib.Algebra.Order.Ring.Int
import Agentihooks.Claiming.Lives

-- A generation that was refunded is older than the claim's, or the one that the task remembers. The lives are never
-- fewer than those counted less those refunded since the last reset.

namespace ClaimLives

variable {s : System} {store store' : Store} {agent : String} {generation started g : ℕ} {held : Bool} {l : List Entry}

-- The agent that holds the claim and the generation it took.
def holding : List Entry → Option (String × ℕ)
  | []                              => none
  | .claimed agent generation :: _  => some (agent, generation)
  | .released :: _                  => none
  | _ :: l                          => holding l

def refunds (l : List Entry) : List ℕ :=
  l.filterMap fun
    | .refunded _ generation => some generation
    | _                      => none

-- The lives counted less those refunded since the last reset.
def net : List Entry → ℤ
  | []                 => 0
  | .reset :: _        => 0
  | .counted :: l      => net l + 1
  | .refunded _ _ :: l => net l - 1
  | _ :: l             => net l

structure Sound (s : System) : Prop where
  holder : holding s.log = s.store.claim.map fun agent => (agent, s.store.generation)
  le     : ∀ g ∈ refunds s.log, g ≤ s.store.generation
  last   : s.store.generation ∈ refunds s.log → s.store.refunded = some s.store.generation
  nodup  : (refunds s.log).Nodup
  lives  : ∀ n, s.store.lives = some n → 0 ≤ n ∧ net s.log ≤ n
  unused : s.store.lives = none → net s.log ≤ 0

-- A refund is of the claim that is held, in a generation not refunded before.
theorem refund_cases (h : store.refund agent generation held started = some store') :
    store.claim = some agent ∧ store.generation = generation ∧ store.refunded ≠ some generation ∧
      store'.claim = store.claim ∧ store'.generation = store.generation ∧ store'.refunded = some generation ∧
        (store'.lives = store.lives ∨ 0 < store.claims started ∧ store'.lives = some (store.claims started - 1)) := by
  rw [Store.refund] at h
  by_cases hc : store.claim ≠ some agent ∨ store.generation ≠ generation ∨ store.refunded = some generation ∨ held
  case pos =>
    rw [if_pos hc] at h
    cases h
  case neg =>
    rw [if_neg hc] at h
    simp only [not_or, not_not] at hc
    obtain ⟨hclaim, hgen, href, _⟩ := hc
    cases hw : store.waiting
    case some execution =>
      rw [hw] at h
      cases h
      exact ⟨hclaim, hgen, href, rfl, rfl, rfl, .inl rfl⟩
    case none =>
      rw [hw] at h
      dsimp only at h
      split_ifs at h with hl
      cases h
      exact ⟨hclaim, hgen, href, rfl, rfl, rfl, .inr ⟨not_le.mp hl, rfl⟩⟩

theorem Sound.claims_le (h : Sound s) (started : ℕ) : 0 ≤ s.store.claims started ∧ net s.log ≤ s.store.claims started := by
  rw [Store.claims]
  cases hl : s.store.lives
  case some n => exact h.lives n hl
  case none =>
    rw [Option.getD_none]
    have hn := h.unused hl
    omega

namespace Sound

theorem refund (h : Sound s) (hr : s.store.refund agent generation held started = some store') :
    Sound { s with store := store', log := .refunded agent generation :: s.log } := by
  obtain ⟨hclaim, hgen, href, hclaim', hgen', href', hlives⟩ := refund_cases hr
  have hfresh : generation ∉ refunds s.log := fun hm => href (hgen ▸ h.last (hgen ▸ hm))
  have hlog : refunds (.refunded agent generation :: s.log) = generation :: refunds s.log := rfl
  have hnet : net (.refunded agent generation :: s.log) = net s.log - 1 := rfl
  constructor
  case holder =>
    simp only [hclaim', hgen']
    exact h.holder
  case le =>
    intro g hg
    rw [hlog, List.mem_cons] at hg
    simp only [hgen']
    obtain rfl | hg := hg
    · exact Nat.le_of_eq hgen.symm
    · exact h.le g hg
  case last =>
    intro _
    simp only [href', hgen', hgen]
  case nodup =>
    rw [hlog, List.nodup_cons]
    exact ⟨hfresh, h.nodup⟩
  case lives =>
    intro n hn
    dsimp only at hn ⊢
    rw [hnet]
    obtain he | ⟨hpos, he⟩ := hlives
    · have := h.lives n (he ▸ hn)
      omega
    · have := h.claims_le started
      rw [he, Option.some_inj] at hn
      omega
  case unused =>
    intro hn
    dsimp only at hn ⊢
    rw [hnet]
    obtain he | ⟨hpos, he⟩ := hlives
    · have := h.unused (he ▸ hn)
      omega
    · rw [he] at hn
      cases hn

theorem claim (h : Sound s) (hc : s.store.claim = none) :
    Sound { s with store := s.store.take agent, log := .claimed agent (s.store.generation + 1) :: s.log } where
  holder := rfl
  le     := fun g hg => (h.le g hg).trans (Nat.le_succ _)
  last   := fun hg => absurd (h.le _ hg) (Nat.not_succ_le_self _)
  nodup  := h.nodup
  lives  := h.lives
  unused := h.unused

theorem free (h : Sound s) : Sound { s with store := { s.store with claim := none }, log := .released :: s.log } where
  holder := rfl
  le     := h.le
  last   := h.last
  nodup  := h.nodup
  lives  := h.lives
  unused := h.unused

-- A command leaves the claim and its refunds as they are, and the lives at least at what they are by the log.
theorem command (h : Sound s) (c : Command) (processes : ℕ → List Command) :
    Sound ⟨c.run s.store, processes, c.entries ++ s.log⟩ := by
  cases c
  case count =>
    refine ⟨h.holder, h.le, h.last, h.nodup, fun n hn => ?_, fun hn => by cases hn⟩
    have hl := h.claims_le 0
    rw [Command.run, Option.some_inj] at hn
    have hnet : net (Command.count.entries ++ s.log) = net s.log + 1 := rfl
    rw [Store.claims, Nat.cast_zero] at hl
    dsimp only
    rw [hnet]
    omega
  case seed started =>
    refine ⟨h.holder, h.le, h.last, h.nodup, fun n hn => ?_, fun hn => by cases hn⟩
    cases hn
    exact h.claims_le started
  case zero =>
    refine ⟨h.holder, h.le, h.last, h.nodup, fun n hn => ?_, fun hn => by cases hn⟩
    cases hn
    exact ⟨le_rfl, le_rfl⟩
  all_goals exact ⟨h.holder, h.le, h.last, h.nodup, h.lives, h.unused⟩

theorem step (h : Sound s) (e : Event) : Sound (s.step e) := by
  cases e
  case call process c =>
    rw [System.step]
    split_ifs
    case pos => exact ⟨h.holder, h.le, h.last, h.nodup, h.lives, h.unused⟩
    case neg => exact h
  case advance process =>
    rw [System.step]
    cases s.processes process
    case nil         => exact h
    case cons c rest => exact h.command c _
  case claim agent held =>
    rw [System.step]
    split_ifs with hc
    case pos => exact h
    case neg => exact h.claim (not_not.mp (not_or.mp hc).right)
  case release agent held =>
    rw [System.step]
    split_ifs
    case pos => exact h
    case neg => exact h.free
  case expire => exact h.free
  case refund agent generation held started =>
    rw [System.step]
    cases hr : s.store.refund agent generation held started
    case none       => exact h
    case some store => exact h.refund hr

theorem start (generation : ℕ) : Sound (System.start generation) where
  holder := rfl
  le     := List.forall_mem_nil _
  last   := fun hm => by cases hm
  nodup  := List.nodup_nil
  lives  := fun n hn => by cases hn
  unused := fun _ => le_rfl

end Sound

-- Whatever calls and transactions come between each other: no generation is refunded twice, a refund is of the claim
-- that is held, and the lives are at least zero and those counted less those refunded since the last reset.
theorem refunds_exact (generation : ℕ) (es : List Event) :
    (refunds (System.run generation es).log).Nodup ∧
    (∀ agent generation' held started store,
      (System.run generation es).store.refund agent generation' held started = some store →
        holding (System.run generation es).log = some (agent, generation') ∧
          generation' ∉ refunds (System.run generation es).log) ∧
    ∀ started, 0 ≤ (System.run generation es).store.claims started ∧
      net (System.run generation es).log ≤ (System.run generation es).store.claims started := by
  have h : Sound (System.run generation es) := Run.invariant (fun _ e hs => hs.step e) (.start generation)
  refine ⟨h.nodup, fun agent generation' held started store hr => ?_, h.claims_le⟩
  obtain ⟨hclaim, hgen, href, _⟩ := refund_cases hr
  constructor
  case left  => rw [h.holder, hclaim, Option.map_some, hgen]
  case right => exact fun hm => href (hgen ▸ h.last (hgen ▸ hm))

-- A reset brings the lives below those counted less those refunded.
def resetting : List Event :=
  [.call 0 (.countClaim 0), .advance 0, .advance 0, .advance 0, .call 0 .resetClaims, .advance 0, .advance 0]

theorem reset_below : (System.run 0 resetting).store.claims 0 = 0 ∧
    (System.run 0 resetting).log.count .counted = 1 ∧ refunds (System.run 0 resetting).log = [] := by
  refine ⟨?_, ?_, ?_⟩ <;> rfl

end ClaimLives
