import Agentihooks.Library.Finmap
import Agentihooks.Naming.System

-- The names that `next` gives: each is above the counter that gave the one before.

namespace Naming

variable {κ : Type} [DecidableEq κ] {s : State κ} {store : Store} {mint : String} {stage : Stage} {p q : κ}

namespace State

-- `call` and `step` as one change of a process's stage.
theorem stages_step : (step s (.step p mint)).stages q =
    if q = p then (advance s.store mint (s.stages p)).2.1 else s.stages q := by
  simp [step, Function.update_apply]

theorem stages_call {call : Call} : (step s (.call p call)).stages q = s.stages q ∨
    (step s (.call p call)).stages q = .called call ∧ q = p := by
  simp only [step]
  split
  case h_1 =>
    by_cases h : q = p
    case pos => simp [h]
    case neg => simp [h]
  case h_2 => simp

theorem stages_call_of_busy {call : Call} (h : s.stages q ≠ .idle) :
    (step s (.call p call)).stages q = s.stages q := by
  simp only [step]
  split
  case h_1 hidle =>
    have hne : q ≠ p := by
      rintro rfl
      exact h hidle
    exact Function.update_of_ne hne _ _
  case h_2 => rfl

-- What is read off the stages of a call under way is as it was before another call begins.
theorem of_call {α : Type} {f : Stage → Option α} {x : α} {call : Call} (hf : f (.called call) = none)
    (h : f ((step s (.call p call)).stages q) = some x) : f (s.stages q) = some x := by
  obtain hs | ⟨hs, _⟩ := @stages_call κ _ s p q call
  case inl => exact hs ▸ h
  case inr =>
    rw [hs, hf] at h
    cases h

theorem store_call {call : Call} : (step s (.call p call)).store = s.store := by
  simp only [step]
  split <;> rfl

theorem returned_call {call : Call} : (step s (.call p call)).returned = s.returned := by
  simp only [step]
  split <;> rfl

end State

namespace Store

theorem counter_count {code code' : String} {kind kind' : Kind} : (store.count code kind).counter code' kind' =
    if code' = code ∧ kind' = kind then store.counter code kind + 1 else store.counter code' kind' := by
  by_cases hc : code' = code
  case pos =>
    subst hc
    by_cases hk : kind' = kind <;> simp [count, counter, hk]
  case neg => simp [count, counter, hc, Finmap.lookup_insert_of_ne _ hc]

theorem counter_write_seq {code code' : String} {counters : Kind → ℕ} {kind : Kind} :
    (store.write (.seq code counters)).counter code' kind =
      if code' = code then counters kind else store.counter code' kind := by
  by_cases hc : code' = code
  case pos =>
    subst hc
    simp [write, counter]
  case neg => simp [write, counter, hc, Finmap.lookup_insert_of_ne _ hc]

end Store

namespace Stage

-- What the access of a stage writes.
def effect (s : Store) (mint : String) : Stage → Store
  | .minting slug ledger repo (_ + 1)        => s.holdCode mint (record slug mint ledger repo)
  | .minted slug code | .adopting slug code  => s.holdCodeOf slug code
  | .lost _ code                             => { s with codes := s.codes.erase code }
  | .called (.adopt slug code ledger repo)   => s.holdCode code (record slug code ledger repo)
  | .called (.release slug)                  => { s with codeOf := s.codeOf.erase slug }
  | .counting _ code kind _                  => s.count code kind
  | .naming name row                         => { s with names := s.names.insert name row }
  | .noting name fields                      => s.amendName name fields
  | .listing old new                         =>
    { s with aliasesOf := s.aliasesOf.insert new (insert old (s.aliases new)) }
  | .pointing old new                        =>
    if s.aliasOf.lookup old = none then { s with aliasOf := s.aliasOf.insert old new } else s
  | .undoing old new                         =>
    { s with aliasesOf := s.aliasesOf.insert new ((s.aliases new).erase old) }
  | .restoring (row :: _)                    => s.write row
  | _                                        => s

end Stage

theorem advance_fst : (advance store mint stage).1 = stage.effect store mint := by
  cases stage
  case called call =>
    cases call
    all_goals simp only [advance, Stage.effect]
    all_goals split <;> rfl
  case minting tries =>
    cases tries
    case zero => rfl
    case succ =>
      simp only [advance, Stage.effect]
      split
      case isTrue    => rfl
      case isFalse h => simp [Store.holdCode, h]
  case restoring rows => cases rows <;> rfl
  case pointing =>
    simp only [advance, Stage.effect]
    split
    case h_1 h => simp [h]
    case h_2 h => simp [h]
  all_goals simp only [advance, Stage.effect]
  all_goals repeat' split
  all_goals rfl

theorem advance_returned : (advance store mint stage).2.2 = stage.named := by
  cases stage
  case called call =>
    cases call
    all_goals simp only [advance, Stage.named]
    all_goals split <;> rfl
  case minting tries =>
    cases tries
    case zero => rfl
    case succ =>
      simp only [advance, Stage.named]
      split <;> rfl
  case restoring rows => cases rows <;> rfl
  all_goals simp only [advance, Stage.named]
  all_goals repeat' split
  all_goals rfl

namespace State

theorem store_step : (step s (.step p mint)).store = (s.stages p).effect s.store mint := by
  rw [← advance_fst]
  rfl

theorem returned_step : (step s (.step p mint)).returned = s.returned ++ (s.stages p).named.toList := by
  rw [← advance_returned]
  rfl

end State

omit [DecidableEq κ] in
theorem counter_le_effect {code : String} {kind : Kind} (hm : s.MeetsAt stage) :
    s.store.counter code kind ≤ (stage.effect s.store mint).counter code kind := by
  cases stage
  case counting slug code' kind' time =>
    rw [Stage.effect, Store.counter_count]
    split
    case isTrue h =>
      rw [h.left, h.right]
      exact Nat.le_succ _
    case isFalse => exact le_refl _
  case restoring rows =>
    cases rows
    case nil => exact le_refl _
    case cons row rows =>
      cases row
      case seq code' counters =>
        rw [Stage.effect, Store.counter_write_seq]
        split
        case isTrue h => exact h ▸ hm kind
        case isFalse  => exact le_refl _
      all_goals exact le_refl _
  case called call =>
    cases call
    case adopt =>
      simp only [Stage.effect, Store.holdCode]
      split <;> exact le_refl _
    all_goals exact le_refl _
  case minting tries =>
    cases tries
    case zero => exact le_refl _
    case succ =>
      simp only [Stage.effect, Store.holdCode]
      split <;> exact le_refl _
  all_goals simp only [Stage.effect, Store.holdCodeOf, Store.amendName]
  all_goals try split
  all_goals exact le_refl _

-- Only `next` comes to register a name, of the count that it has just raised.
theorem named_advance {name : Name} (h : (advance store mint stage).2.1.named = some name) :
    stage.named = none ∧ ∃ kind code, name = .agent kind code (store.counter code kind + 1) ∧
      (stage.effect store mint).counter code kind = store.counter code kind + 1 := by
  cases stage
  case counting slug code kind time =>
    simp only [advance] at h
    split at h
    case isTrue =>
      have hc : (store.count code kind).counter code kind = store.counter code kind + 1 := by
        rw [Store.counter_count, if_pos ⟨rfl, rfl⟩]
      rw [hc] at h
      exact ⟨rfl, kind, code, (Option.some.inj h).symm, hc⟩
    case isFalse => cases h
  case called call =>
    cases call
    all_goals simp only [advance] at h
    all_goals repeat' split at h
    all_goals cases h
  case minting tries =>
    cases tries
    case zero => cases h
    case succ =>
      simp only [advance] at h
      split at h <;> cases h
  case restoring rows => cases rows <;> cases h
  all_goals simp only [advance] at h
  all_goals repeat' split at h
  all_goals cases h

-- The names returned and those about to be are all different, and none is above its counter.
structure Counted (s : State κ) : Prop where
  nodup    : s.returned.Nodup
  le       : ∀ kind code number, .agent kind code number ∈ s.returned → number ≤ s.store.counter code kind
  naming   : ∀ p name, (s.stages p).named = some name → name ∉ s.returned ∧
    ∃ kind code number, name = .agent kind code number ∧ number ≤ s.store.counter code kind
  distinct : ∀ p q name, (s.stages p).named = some name → (s.stages q).named = some name → p = q

namespace Counted

omit [DecidableEq κ] in
theorem initial (h : s.Initial) : Counted s where
  nodup    := by simp [h.returned]
  le       := by simp [h.returned]
  naming   := by simp [h.idle, Stage.named]
  distinct := by simp [h.idle, Stage.named]

omit [DecidableEq κ] in
-- A name that no counter has reached is neither returned nor about to be.
theorem fresh (h : Counted s) {kind : Kind} {code : String} :
    .agent kind code (s.store.counter code kind + 1) ∉ s.returned ∧
      ∀ q, (s.stages q).named ≠ some (.agent kind code (s.store.counter code kind + 1)) := by
  constructor
  case left =>
    intro hr
    exact Nat.not_succ_le_self _ (h.le _ _ _ hr)
  case right =>
    intro q hq
    have ⟨_, _, _, _, he, hl⟩ := h.naming q _ hq
    obtain ⟨rfl, rfl, rfl⟩ := Name.agent.inj he
    exact Nat.not_succ_le_self _ hl

theorem call (h : Counted s) {call : Call} : Counted (Naming.step s (.call p call)) where
  nodup                  := by rw [State.returned_call]; exact h.nodup
  le                     := by rw [State.returned_call, State.store_call]; exact h.le
  naming q name hq       := by
    rw [State.returned_call, State.store_call]
    exact h.naming q name (State.of_call rfl hq)
  distinct q r name hq hr := h.distinct q r name (State.of_call rfl hq) (State.of_call rfl hr)

-- A name about to be returned after a step was so before it, in the same process, or is fresh.
theorem named_step (h : Counted s) {name : Name} (hq : ((Naming.step s (.step p mint)).stages q).named = some name) :
    (q ≠ p ∧ (s.stages q).named = some name) ∨ (q = p ∧ (s.stages p).named = none ∧ name ∉ s.returned ∧
      (∀ r, (s.stages r).named ≠ some name) ∧ ∃ kind code number, name = .agent kind code number ∧
        number ≤ (Naming.step s (.step p mint)).store.counter code kind) := by
  rw [State.stages_step] at hq
  split at hq
  case isFalse hne => exact .inl ⟨hne, hq⟩
  case isTrue heq =>
    have ⟨hn, kind, code, hname, hc⟩ := named_advance hq
    refine .inr ⟨heq, hn, hname ▸ h.fresh.left, hname ▸ h.fresh.right, kind, code, _, hname, ?_⟩
    rw [State.store_step, hc]

theorem step (h : Counted s) (hm : s.MeetsAt (s.stages p)) : Counted (Naming.step s (.step p mint)) := by
  have hr := @State.returned_step κ _ s mint p
  have hle (code kind) : s.store.counter code kind ≤ (Naming.step s (.step p mint)).store.counter code kind := by
    rw [State.store_step]
    exact counter_le_effect hm
  constructor
  case nodup =>
    rw [hr]
    cases hn : (s.stages p).named
    case none => simpa using h.nodup
    case some name =>
      apply h.nodup.append (List.nodup_singleton _)
      simpa using (h.naming p name hn).left
  case le =>
    intro kind code number hmem
    rw [hr, List.mem_append] at hmem
    cases hmem
    case inl hmem => exact (h.le _ _ _ hmem).trans (hle _ _)
    case inr hmem =>
      have ⟨_, _, _, _, he, hl⟩ := h.naming p _ (Option.mem_toList.mp hmem)
      obtain ⟨rfl, rfl, rfl⟩ := Name.agent.inj he
      exact hl.trans (hle _ _)
  case naming =>
    intro q name hq
    obtain ⟨hne, hq⟩ | ⟨rfl, hn, hnot, -, hc⟩ := h.named_step hq
    case inl =>
      have ⟨hnot, kind, code, number, he, hl⟩ := h.naming q name hq
      refine ⟨?_, kind, code, number, he, hl.trans (hle _ _)⟩
      intro hmem
      rw [hr, List.mem_append] at hmem
      cases hmem
      case inl hmem => exact hnot hmem
      case inr hmem => exact hne (h.distinct q p name hq (Option.mem_toList.mp hmem))
    case inr =>
      rw [hr, hn]
      exact ⟨by simpa using hnot, hc⟩
  case distinct =>
    intro q r name hq hr
    obtain ⟨_, hq⟩ | ⟨rfl, _, _, hf, _⟩ := h.named_step hq
    case inl =>
      obtain ⟨_, hr⟩ | ⟨_, _, _, hf, _⟩ := h.named_step hr
      case inl => exact h.distinct q r name hq hr
      case inr => exact (hf q hq).elim
    case inr =>
      obtain ⟨_, hr⟩ | ⟨rfl, _⟩ := h.named_step hr
      case inl => exact (hf r hr).elim
      case inr => rfl

end Counted

end Naming

-- The codes and the code of each swarm: a code that a mint may still remove is the code of no swarm.

namespace Naming

variable {κ : Type} [DecidableEq κ] {s s' : State κ} {mint : String} {p q : κ}

namespace Stage

def adopted : Stage → Option (String × String)
  | .adopting slug code => some (slug, code)
  | _                   => none

end Stage

structure Coded (s : State κ) : Prop where
  recorded : ∀ slug code, s.store.codeOf.lookup slug = some code → s.store.Records slug code
  held     : ∀ p slug code, (s.stages p).held = some (slug, code) →
    s.store.Records slug code ∧ ∀ other, s.store.codeOf.lookup other ≠ some code
  distinct : ∀ p q slug slug' code, (s.stages p).held = some (slug, code) → (s.stages q).held = some (slug', code) →
    p = q
  adopted  : ∀ p slug code, (s.stages p).adopted = some (slug, code) → s.store.Records slug code ∧ s.Unheld code

omit [DecidableEq κ] in
theorem State.unheld_iff {code : String} : s.Unheld code ↔ ∀ p slug, (s.stages p).held ≠ some (slug, code) := by
  simp [State.Unheld]

namespace Store

variable {store : Store} {slug slug' code code' : String} {held : SwarmRecord}

theorem lookup_holdCode : (store.holdCode code held).codes.lookup code' =
    if code' = code ∧ store.codes.lookup code = none then some held else store.codes.lookup code' := by
  cases hc : store.codes.lookup code
  case some => simp [holdCode, hc]
  case none =>
    by_cases h : code' = code
    case pos =>
      subst h
      simp [holdCode, hc]
    case neg => simp [holdCode, hc, h, Finmap.lookup_insert_of_ne _ h]

theorem lookup_holdCodeOf : (store.holdCodeOf slug code).codeOf.lookup slug' =
    if slug' = slug ∧ store.codeOf.lookup slug = none then some code else store.codeOf.lookup slug' := by
  cases hc : store.codeOf.lookup slug
  case some => simp [holdCodeOf, hc]
  case none =>
    by_cases h : slug' = slug
    case pos =>
      subst h
      simp [holdCodeOf, hc]
    case neg => simp [holdCodeOf, hc, h, Finmap.lookup_insert_of_ne _ h]

@[simp]
theorem codes_holdCodeOf : (store.holdCodeOf slug code).codes = store.codes := by
  rw [holdCodeOf]
  split <;> rfl

@[simp]
theorem codeOf_holdCode : (store.holdCode code held).codeOf = store.codeOf := by
  rw [holdCode]
  split <;> rfl

@[simp]
theorem codes_amendName {name : Name} {fields : NameRow → NameRow} :
    (store.amendName name fields).codes = store.codes := by
  rw [amendName]
  split <;> rfl

@[simp]
theorem codeOf_amendName {name : Name} {fields : NameRow → NameRow} :
    (store.amendName name fields).codeOf = store.codeOf := by
  rw [amendName]
  split <;> rfl

@[simp]
theorem records_holdCodeOf : (store.holdCodeOf slug' code').Records slug code ↔ store.Records slug code := by
  simp [Records]

theorem records_of_holdCode (h : store.Records slug code) : (store.holdCode code' held).Records slug code := by
  rw [Records, lookup_holdCode]
  split
  case isTrue hc =>
    rw [Records, hc.left, hc.right] at h
    cases h
  case isFalse   => exact h

end Store

namespace Coded

omit [DecidableEq κ] in
theorem initial (h : s.Initial) : Coded s where
  recorded := h.consistent.recorded
  held     := by simp [h.idle, Stage.held]
  distinct := by simp [h.idle, Stage.held]
  adopted  := by simp [h.idle, Stage.adopted]

omit [DecidableEq κ] in
theorem unheld_of_free {code : String} (h : Coded s) (hc : s.store.codes.lookup code = none) : s.Unheld code := by
  rw [State.unheld_iff]
  intro q slug hq
  have hr := (h.held q slug code hq).left
  simp [Store.Records, hc] at hr

omit [DecidableEq κ] in
-- What a change has to keep: a record goes only with the mint that held it; a code that a swarm comes to have is
-- recorded and not held; a code that a mint comes to hold was free; and one that is adopted is recorded and not held.
theorem change (h : Coded s) (p : κ)
    (hrec : ∀ slug code, s.store.Records slug code → s'.store.Records slug code ∨
      ∃ slug', (s.stages p).held = some (slug', code) ∧ (s'.stages p).held = none)
    (hcode : ∀ slug code, s'.store.codeOf.lookup slug = some code → s.store.codeOf.lookup slug = some code ∨
      s.store.Records slug code ∧ s'.store.Records slug code ∧ s'.Unheld code)
    (hheld : ∀ q slug code, (s'.stages q).held = some (slug, code) → (s.stages q).held = some (slug, code) ∨
      q = p ∧ s.store.codes.lookup code = none ∧ s'.store.Records slug code)
    (hadopted : ∀ q slug code, (s'.stages q).adopted = some (slug, code) → (s.stages q).adopted = some (slug, code) ∨
      s'.store.Records slug code ∧ s'.Unheld code) : Coded s' := by
  have hfree {slug code} (hc : s.store.codes.lookup code = none) : ¬s.store.Records slug code := by
    simp [Store.Records, hc]
  constructor
  case recorded =>
    intro slug code hc
    obtain hc | ⟨-, hc, -⟩ := hcode slug code hc
    case inr => exact hc
    obtain hr | ⟨slug', hp, -⟩ := hrec slug code (h.recorded slug code hc)
    case inl => exact hr
    case inr => exact ((h.held p slug' code hp).right slug hc).elim
  case held =>
    intro q slug code hq
    have hnot (other) : s'.store.codeOf.lookup other ≠ some code := by
      intro hc
      obtain hc | ⟨-, -, hu⟩ := hcode other code hc
      case inr => exact State.unheld_iff.mp hu q slug hq
      obtain hq | ⟨-, hn, -⟩ := hheld q slug code hq
      case inl => exact (h.held q slug code hq).right other hc
      case inr => exact hfree hn (h.recorded other code hc)
    refine ⟨?_, hnot⟩
    obtain hq' | ⟨-, -, hr⟩ := hheld q slug code hq
    case inr => exact hr
    obtain hr | ⟨slug', hp, hnone⟩ := hrec slug code (h.held q slug code hq').left
    case inl => exact hr
    case inr =>
      have heq := h.distinct q p slug slug' code hq' hp
      rw [heq, hnone] at hq
      cases hq
  case distinct =>
    intro q r slug slug' code hq hr
    obtain hq | ⟨rfl, hn, -⟩ := hheld q slug code hq
    case inl =>
      obtain hr | ⟨-, hn, -⟩ := hheld r slug' code hr
      case inl => exact h.distinct q r slug slug' code hq hr
      case inr => exact (hfree hn (h.held q slug code hq).left).elim
    case inr =>
      obtain hr | ⟨rfl, -⟩ := hheld r slug' code hr
      case inl => exact (hfree hn (h.held r slug' code hr).left).elim
      case inr => rfl
  case adopted =>
    intro q slug code hq
    obtain hq | hq := hadopted q slug code hq
    case inr => exact hq
    have ⟨hr, hu⟩ := h.adopted q slug code hq
    constructor
    case left =>
      obtain hr | ⟨slug', hp, -⟩ := hrec slug code hr
      case inl => exact hr
      case inr => exact (State.unheld_iff.mp hu p slug' hp).elim
    case right =>
      rw [State.unheld_iff]
      intro r slug' hr'
      obtain hr' | ⟨-, hn, -⟩ := hheld r slug' code hr'
      case inl => exact State.unheld_iff.mp hu r slug' hr'
      case inr => exact hfree hn hr

theorem call (h : Coded s) {call : Call} : Coded (Naming.step s (.call p call)) := by
  apply h.change p
  case hrec     => exact fun _ _ hr => .inl (by rwa [State.store_call])
  case hcode    => exact fun _ _ hc => .inl (by rwa [State.store_call] at hc)
  case hheld    => exact fun _ _ _ hq => .inl (State.of_call rfl hq)
  case hadopted => exact fun _ _ _ hq => .inl (State.of_call rfl hq)

-- The same for a step, whose stage alone is new.
theorem of_step (h : Coded s)
    (hrec : ∀ slug code, s.store.Records slug code → ((s.stages p).effect s.store mint).Records slug code ∨
      ∃ slug', (s.stages p).held = some (slug', code) ∧ (advance s.store mint (s.stages p)).2.1.held = none)
    (hcode : ∀ slug code, ((s.stages p).effect s.store mint).codeOf.lookup slug = some code →
      s.store.codeOf.lookup slug = some code ∨ s.store.Records slug code ∧
      ((s.stages p).effect s.store mint).Records slug code ∧ (Naming.step s (.step p mint)).Unheld code)
    (hheld : ∀ slug code, (advance s.store mint (s.stages p)).2.1.held = some (slug, code) →
      (s.stages p).held = some (slug, code) ∨
      s.store.codes.lookup code = none ∧ ((s.stages p).effect s.store mint).Records slug code)
    (hadopted : ∀ slug code, (advance s.store mint (s.stages p)).2.1.adopted = some (slug, code) →
      ((s.stages p).effect s.store mint).Records slug code ∧ (Naming.step s (.step p mint)).Unheld code) :
    Coded (Naming.step s (.step p mint)) := by
  apply h.change p
  case hrec =>
    intro slug code hr
    rw [State.store_step, State.stages_step, if_pos rfl]
    exact hrec slug code hr
  case hcode =>
    intro slug code hc
    rw [State.store_step] at hc ⊢
    exact hcode slug code hc
  case hheld =>
    intro q slug code hq
    rw [State.stages_step] at hq
    rw [State.store_step]
    split at hq
    case isTrue heq =>
      subst heq
      exact (hheld slug code hq).imp_right fun hr => ⟨rfl, hr⟩
    case isFalse => exact .inl hq
  case hadopted =>
    intro q slug code hq
    rw [State.stages_step] at hq
    rw [State.store_step]
    split at hq
    case isTrue  => exact .inr (hadopted slug code hq)
    case isFalse => exact .inl hq

-- A step that writes neither codes nor the code of a swarm, and begins no mint or adoption.
theorem frame (h : Coded s) (hc : ((s.stages p).effect s.store mint).codes = s.store.codes)
    (ho : ((s.stages p).effect s.store mint).codeOf = s.store.codeOf)
    (hh : (advance s.store mint (s.stages p)).2.1.held = none)
    (ha : (advance s.store mint (s.stages p)).2.1.adopted = none) : Coded (Naming.step s (.step p mint)) := by
  apply h.of_step
  case hrec     => exact fun _ _ hr => .inl (by rwa [Store.Records, hc])
  case hcode    => exact fun _ _ hslug => .inl (ho ▸ hslug)
  case hheld    => simp [hh]
  case hadopted => simp [ha]

-- After a step that leaves the process without a mint, a code is held by another process or not at all.
theorem unheld_step {code : String} (hn : (advance s.store mint (s.stages p)).2.1.held = none)
    (hq : ∀ q ≠ p, ∀ slug, (s.stages q).held ≠ some (slug, code)) :
    (Naming.step s (.step p mint)).Unheld code := by
  rw [State.unheld_iff]
  intro q slug
  rw [State.stages_step]
  split
  case isTrue        => simp [hn]
  case isFalse hne => exact hq q hne slug

theorem step_minted {slug code : String} (h : Coded s) (hs : s.stages p = .minted slug code) :
    Coded (Naming.step s (.step p mint)) := by
  have hp : (s.stages p).held = some (slug, code) := by rw [hs]; rfl
  have ⟨hr, hnot⟩ := h.held p slug code hp
  apply h.of_step
  case hrec => exact fun _ _ hr => .inl (by simpa [hs, Stage.effect] using hr)
  case hcode =>
    intro slug' code' hc
    rw [hs, Stage.effect, Store.lookup_holdCodeOf] at hc
    split at hc
    case isFalse => exact .inl hc
    case isTrue hn =>
      obtain ⟨rfl, hn⟩ := hn
      cases hc
      refine .inr ⟨hr, by simpa [hs, Stage.effect] using hr, ?_⟩
      apply unheld_step
      case hn => simp [hs, advance, Store.lookup_holdCodeOf, hn, Stage.held]
      case hq =>
        intro q hne slug hq
        exact hne (h.distinct q p slug slug' code hq hp)
  case hheld =>
    intro slug' code' hh
    simp only [hs, advance] at hh
    split at hh
    case isTrue => cases hh
    case isFalse =>
      rw [hp]
      exact .inl hh
  case hadopted =>
    intro slug' code' ha
    simp only [hs, advance] at ha
    split at ha <;> cases ha

theorem step_minting {slug ledger repo : String} {tries : ℕ} (h : Coded s)
    (hs : s.stages p = .minting slug ledger repo tries) : Coded (Naming.step s (.step p mint)) := by
  cases tries
  case zero => apply h.frame <;> simp [hs, Stage.effect, advance, Stage.held, Stage.adopted]
  case succ tries =>
    by_cases hn : s.store.codes.lookup mint = none
    case neg =>
      apply h.frame
      all_goals simp [hs, Stage.effect, Store.holdCode, hn, advance, Stage.held, Stage.adopted]
    case pos =>
      apply h.of_step
      case hrec =>
        intro slug' code hr
        rw [hs]
        exact .inl (Store.records_of_holdCode hr)
      case hcode    => exact fun _ _ hc => .inl (by simpa [hs, Stage.effect] using hc)
      case hadopted => simp [hs, advance, hn, Stage.adopted]
      case hheld =>
        intro slug' code hh
        simp [hs, advance, hn, Stage.held] at hh
        obtain ⟨rfl, rfl⟩ := hh
        refine .inr ⟨hn, ?_⟩
        simp [hs, Stage.effect, Store.Records, Store.lookup_holdCode, hn, record]

theorem step_lost {slug code : String} (h : Coded s) (hs : s.stages p = .lost slug code) :
    Coded (Naming.step s (.step p mint)) := by
  apply h.of_step
  case hcode    => exact fun _ _ hc => .inl (by simpa [hs, Stage.effect] using hc)
  case hheld    => simp [hs, advance, Stage.held]
  case hadopted => simp [hs, advance, Stage.adopted]
  case hrec =>
    intro slug' code' hr
    by_cases heq : code' = code
    case pos =>
      subst heq
      exact .inr ⟨slug, by rw [hs]; rfl, by rw [hs]; rfl⟩
    case neg =>
      rw [hs, Stage.effect, Store.Records, Finmap.lookup_erase_ne heq]
      exact .inl hr

theorem step_adopting {slug code : String} (h : Coded s) (hs : s.stages p = .adopting slug code) :
    Coded (Naming.step s (.step p mint)) := by
  have ⟨hr, hu⟩ := h.adopted p slug code (by rw [hs]; rfl)
  apply h.of_step
  case hrec     => exact fun _ _ hr => .inl (by simpa [hs, Stage.effect] using hr)
  case hheld    => simp [hs, advance, Stage.held]
  case hadopted => simp [hs, advance, Stage.adopted]
  case hcode =>
    intro slug' code' hc
    rw [hs, Stage.effect, Store.lookup_holdCodeOf] at hc
    split at hc
    case isFalse => exact .inl hc
    case isTrue hn =>
      obtain ⟨rfl, hn⟩ := hn
      cases hc
      refine .inr ⟨hr, by simpa [hs, Stage.effect] using hr, ?_⟩
      apply unheld_step
      case hn => rw [hs]; rfl
      case hq => exact fun q _ => State.unheld_iff.mp hu q

theorem step_adopt {slug code ledger repo : String} (h : Coded s)
    (hs : s.stages p = .called (.adopt slug code ledger repo)) (hm : s.MeetsAt (s.stages p)) :
    Coded (Naming.step s (.step p mint)) := by
  rw [hs] at hm
  apply h.of_step
  case hcode => exact fun _ _ hc => .inl (by simpa [hs, Stage.effect] using hc)
  case hheld => simp [hs, advance, Stage.held]
  case hrec =>
    intro slug' code' hr
    rw [hs]
    exact .inl (Store.records_of_holdCode hr)
  case hadopted =>
    intro slug' code' ha
    simp [hs, advance, Stage.adopted] at ha
    obtain ⟨rfl, rfl⟩ := ha
    constructor
    case left =>
      rw [hs, Stage.effect, Store.Records, Store.lookup_holdCode]
      cases hc : s.store.codes.lookup code
      case none      => simp [record]
      case some held => simp [hm.left held hc]
    case right =>
      apply unheld_step
      case hn => rw [hs]; rfl
      case hq => exact fun q _ => State.unheld_iff.mp hm.right q

theorem step_restoring {rows : List Row} (h : Coded s) (hs : s.stages p = .restoring rows)
    (hm : s.MeetsAt (s.stages p)) : Coded (Naming.step s (.step p mint)) := by
  cases rows
  case nil => apply h.frame <;> simp [hs, Stage.effect, advance, Stage.held, Stage.adopted]
  case cons row rows =>
    rw [hs] at hm
    cases row
    case codes code held =>
      apply h.of_step
      case hcode    => exact fun _ _ hc => .inl (by simpa [hs, Stage.effect, Store.write] using hc)
      case hheld    => simp [hs, advance, Stage.held]
      case hadopted => simp [hs, advance, Stage.adopted]
      case hrec =>
        intro slug' code' hr
        rw [hs, Stage.effect, Store.write, Store.Records]
        by_cases heq : code' = code
        case neg =>
          rw [Finmap.lookup_insert_of_ne _ heq]
          exact .inl hr
        case pos =>
          subst heq
          obtain ⟨kept, hk, hswarm⟩ := Option.map_eq_some_iff.mp hr
          simp [← hm kept hk, hswarm]
    case codeOf slug code =>
      apply h.of_step
      case hrec     => exact fun _ _ hr => .inl (by rwa [hs])
      case hheld    => simp [hs, advance, Stage.held]
      case hadopted => simp [hs, advance, Stage.adopted]
      case hcode =>
        intro slug' code' hc
        rw [hs, Stage.effect, Store.write, Finmap.lookup_insert_ite] at hc
        split at hc
        case isFalse => exact .inl hc
        case isTrue heq =>
          subst heq
          cases hc
          refine .inr ⟨hm.left, by rw [hs]; exact hm.left, ?_⟩
          apply unheld_step
          case hn => rw [hs]; rfl
          case hq => exact fun q _ => State.unheld_iff.mp hm.right q
    all_goals apply h.frame
    all_goals simp [hs, Stage.effect, Store.write, advance, Stage.held, Stage.adopted]

theorem step (h : Coded s) (hm : s.MeetsAt (s.stages p)) : Coded (Naming.step s (.step p mint)) := by
  cases hs : s.stages p
  case minting   => exact h.step_minting hs
  case minted    => exact h.step_minted hs
  case lost      => exact h.step_lost hs
  case adopting  => exact h.step_adopting hs
  case restoring => exact h.step_restoring hs hm
  case called call =>
    cases call
    case adopt => exact h.step_adopt hs hm
    case release slug =>
      apply h.of_step
      case hrec     => exact fun _ _ hr => .inl (by rwa [hs])
      case hheld    => simp [hs, advance, Stage.held]
      case hadopted => simp [hs, advance, Stage.adopted]
      case hcode =>
        intro slug' code hc
        rw [hs, Stage.effect, Finmap.lookup_erase_ite] at hc
        split at hc
        case isTrue  => cases hc
        case isFalse => exact .inl hc
    all_goals apply h.frame
    all_goals simp only [hs, Stage.effect, advance]
    all_goals repeat' split
    all_goals rfl
  all_goals apply h.frame
  all_goals simp only [hs, Stage.effect, Store.codes_amendName, Store.codeOf_amendName, advance]
  all_goals repeat' split
  all_goals rfl

end Coded

end Naming
