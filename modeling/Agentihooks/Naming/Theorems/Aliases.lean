import Agentihooks.Library.Run
import Agentihooks.Naming.Theorems.Counters

-- The aliases: an alias once recorded stays, and a list holds what is recorded or what a call is about to record or to
-- take back.

namespace Naming

variable {κ : Type} [DecidableEq κ] {s : State κ} {store : Store} {mint : String} {stage : Stage} {p q : κ}
variable {name old new found held : Name}

namespace Stage

def sought : Stage → Option (Name × Name)
  | .looking _ new found => some (new, found)
  | _                    => none

def pointed : Stage → Option (Name × Name)
  | .pointing old new => some (old, new)
  | _                 => none

def undone : Stage → Option (Name × Name)
  | .undoing old new => some (old, new)
  | _                => none

end Stage

namespace Store

variable {slug code : String} {held : SwarmRecord} {fields : NameRow → NameRow}

@[simp]
theorem names_holdCode : (store.holdCode code held).names = store.names := by
  rw [holdCode]
  split <;> rfl

@[simp]
theorem aliasOf_holdCode : (store.holdCode code held).aliasOf = store.aliasOf := by
  rw [holdCode]
  split <;> rfl

@[simp]
theorem aliasesOf_holdCode : (store.holdCode code held).aliasesOf = store.aliasesOf := by
  rw [holdCode]
  split <;> rfl

@[simp]
theorem names_holdCodeOf : (store.holdCodeOf slug code).names = store.names := by
  rw [holdCodeOf]
  split <;> rfl

@[simp]
theorem aliasOf_holdCodeOf : (store.holdCodeOf slug code).aliasOf = store.aliasOf := by
  rw [holdCodeOf]
  split <;> rfl

@[simp]
theorem aliasesOf_holdCodeOf : (store.holdCodeOf slug code).aliasesOf = store.aliasesOf := by
  rw [holdCodeOf]
  split <;> rfl

@[simp]
theorem aliasOf_amendName : (store.amendName name fields).aliasOf = store.aliasOf := by
  rw [amendName]
  split <;> rfl

@[simp]
theorem aliasesOf_amendName : (store.amendName name fields).aliasesOf = store.aliasesOf := by
  rw [amendName]
  split <;> rfl

@[simp]
theorem registered_amendName : (store.amendName old fields).Registered name ↔ store.Registered name := by
  cases h : store.names.lookup old
  case none => simp [amendName, h]
  case some row =>
    by_cases hn : name = old
    case pos =>
      subst hn
      simp [Registered, amendName, h]
    case neg => simp [Registered, amendName, h, Finmap.lookup_insert_of_ne _ hn]

theorem aliases_insert {olds : Finset Name} :
    ({ store with aliasesOf := store.aliasesOf.insert new olds } : Store).aliases name =
      if name = new then olds else store.aliases name := by
  by_cases h : name = new
  case pos =>
    subst h
    simp [aliases]
  case neg => simp [aliases, h, Finmap.lookup_insert_of_ne _ h]

end Store

-- What an access writes, seen from the names and their aliases.
inductive Writes (store : Store) : Stage → Store → Prop
  | frame {stage : Stage} {store' : Store} (names : ∀ name, store'.Registered name ↔ store.Registered name)
    (aliasOf : store'.aliasOf = store.aliasOf) (aliasesOf : store'.aliasesOf = store.aliasesOf) :
    Writes store stage store'
  | naming name row : Writes store (.naming name row) { store with names := store.names.insert name row }
  | listing old new : Writes store (.listing old new)
    { store with aliasesOf := store.aliasesOf.insert new (insert old (store.aliases new)) }
  | pointing {old : Name} (new : Name) (h : store.aliasOf.lookup old = none) : Writes store (.pointing old new)
    { store with aliasOf := store.aliasOf.insert old new }
  | undoing old new : Writes store (.undoing old new)
    { store with aliasesOf := store.aliasesOf.insert new ((store.aliases new).erase old) }
  | restoringName name row rows : Writes store (.restoring (.name name row :: rows))
    { store with names := store.names.insert name row }
  | restoringList name olds rows : Writes store (.restoring (.aliasesOf name olds :: rows))
    { store with aliasesOf := store.aliasesOf.insert name olds }
  | restoringAlias old name rows : Writes store (.restoring (.aliasOf old name :: rows))
    { store with aliasOf := store.aliasOf.insert old name }

theorem effect_writes : Writes store stage (stage.effect store mint) := by
  cases stage
  case naming    => exact .naming ..
  case listing   => exact .listing ..
  case undoing   => exact .undoing ..
  case pointing =>
    rw [Stage.effect]
    split
    case isTrue h => exact .pointing _ h
    case isFalse  => exact .frame (by simp) rfl rfl
  case restoring rows =>
    cases rows
    case nil => exact .frame (by simp [Stage.effect]) rfl rfl
    case cons row rows =>
      cases row
      case name      => exact .restoringName ..
      case aliasesOf => exact .restoringList ..
      case aliasOf   => exact .restoringAlias ..
      all_goals exact .frame (by simp [Stage.effect, Store.write, Store.Registered]) rfl rfl
  case called call =>
    cases call
    case adopt => apply Writes.frame <;> simp [Stage.effect, Store.Registered]
    all_goals exact .frame (by simp [Stage.effect, Store.Registered]) rfl rfl
  case minting tries => cases tries <;> apply Writes.frame <;> simp [Stage.effect, Store.Registered]
  case counting => exact .frame (by simp [Stage.effect, Store.count, Store.Registered]) rfl rfl
  all_goals apply Writes.frame
  all_goals simp [Stage.effect]
  all_goals simp [Store.Registered]

namespace Writes

variable {store' : Store}

theorem registered (w : Writes store stage store') (h : store'.Registered name) : store.Registered name ∨
    (∃ row, stage = .naming name row) ∨ ∃ row rows, stage = .restoring (.name name row :: rows) := by
  cases w
  case frame hn _ _ => exact .inl ((hn name).mp h)
  case naming name' row =>
    by_cases hn : name = name'
    case pos => exact .inr (.inl ⟨row, by rw [hn]⟩)
    case neg =>
      rw [Store.Registered, Finmap.lookup_insert_of_ne _ hn] at h
      exact .inl h
  case restoringName name' row rows =>
    by_cases hn : name = name'
    case pos => exact .inr (.inr ⟨row, rows, by rw [hn]⟩)
    case neg =>
      rw [Store.Registered, Finmap.lookup_insert_of_ne _ hn] at h
      exact .inl h
  all_goals exact .inl h

theorem registered_mono (w : Writes store stage store') (h : store.Registered name) : store'.Registered name := by
  have hinsert {name' row} : ({ store with names := store.names.insert name' row } : Store).Registered name := by
    rw [Store.Registered, Finmap.lookup_insert_ite]
    split
    case isTrue  => rfl
    case isFalse => exact h
  cases w
  case frame hn _ _  => exact (hn name).mpr h
  case naming        => exact hinsert
  case restoringName => exact hinsert
  all_goals exact h

theorem aliasOf (w : Writes store stage store') (h : store'.aliasOf.lookup old = some name) :
    store.aliasOf.lookup old = some name ∨ stage = .pointing old name ∧ store.aliasOf.lookup old = none ∨
      ∃ rows, stage = .restoring (.aliasOf old name :: rows) := by
  cases w
  case frame _ ha _ => exact .inl (ha ▸ h)
  case pointing old' new hnone =>
    rw [Finmap.lookup_insert_ite] at h
    split at h
    case isTrue heq =>
      subst heq
      cases h
      exact .inr (.inl ⟨rfl, hnone⟩)
    case isFalse => exact .inl h
  case restoringAlias old' name' rows =>
    rw [Finmap.lookup_insert_ite] at h
    split at h
    case isTrue heq =>
      subst heq
      cases h
      exact .inr (.inr ⟨rows, rfl⟩)
    case isFalse => exact .inl h
  all_goals exact .inl h

omit [DecidableEq κ] in
theorem aliasOf_mono (w : Writes s.store stage store') (hm : s.MeetsAt stage)
    (h : s.store.aliasOf.lookup old = some name) : store'.aliasOf.lookup old = some name := by
  cases w
  case frame _ ha _ => exact ha ▸ h
  case pointing old' new hnone =>
    have hne : old ≠ old' := by
      rintro rfl
      cases hnone.symm.trans h
    rw [Finmap.lookup_insert_of_ne _ hne]
    exact h
  case restoringAlias old' name' rows =>
    by_cases heq : old = old'
    case pos =>
      subst heq
      rw [Finmap.lookup_insert, hm.2.2.2.1 name h]
    case neg =>
      rw [Finmap.lookup_insert_of_ne _ heq]
      exact h
  all_goals exact h

theorem mem_aliases (w : Writes store stage store') (h : old ∈ store'.aliases name) :
    old ∈ store.aliases name ∨ stage = .listing old name ∨
      ∃ olds rows, stage = .restoring (.aliasesOf name olds :: rows) ∧ old ∈ olds := by
  cases w
  case frame _ _ hl => exact .inl (by rwa [Store.aliases, hl] at h)
  case listing old' new =>
    rw [Store.aliases_insert] at h
    split at h
    case isTrue heq =>
      subst heq
      obtain rfl | h := Finset.mem_insert.mp h
      case inl => exact .inr (.inl rfl)
      case inr => exact .inl h
    case isFalse => exact .inl h
  case undoing old' new =>
    rw [Store.aliases_insert] at h
    split at h
    case isTrue heq => exact .inl (heq ▸ Finset.mem_of_mem_erase h)
    case isFalse    => exact .inl h
  case restoringList name' olds rows =>
    rw [Store.aliases_insert] at h
    split at h
    case isTrue heq => exact .inr (.inr ⟨olds, rows, by rw [heq], h⟩)
    case isFalse    => exact .inl h
  all_goals exact .inl h

omit [DecidableEq κ] in
theorem mem_aliases_mono (w : Writes s.store stage store') (hm : s.MeetsAt stage) (h : old ∈ s.store.aliases name) :
    old ∈ store'.aliases name ∨ stage = .undoing old name := by
  cases w
  case frame _ _ hl => exact .inl (by rwa [Store.aliases, hl])
  case listing old' new =>
    rw [Store.aliases_insert]
    split
    case isTrue heq => exact .inl (Finset.mem_insert_of_mem (heq ▸ h))
    case isFalse    => exact .inl h
  case undoing old' new =>
    rw [Store.aliases_insert]
    split
    case isFalse => exact .inl h
    case isTrue heq =>
      subst heq
      by_cases ho : old = old'
      case pos => exact .inr (by rw [ho])
      case neg => exact .inl (Finset.mem_erase.mpr ⟨ho, h⟩)
  case restoringList name' olds rows =>
    rw [Store.aliases_insert]
    split
    case isTrue heq =>
      subst heq
      exact .inl (hm.left h)
    case isFalse => exact .inl h
  all_goals exact .inl h

end Writes

-- A stage that tells nothing of aliases.
structure Clear (stage : Stage) : Prop where
  sought  : stage.sought = none
  bound   : stage.bound = none
  aliased : stage.aliased = none
  pointed : stage.pointed = none
  undone  : stage.undone = none
  due     : stage.due = []

-- The next stage of a call, seen from the aliases.
inductive Moves (store : Store) : Stage → Stage → Prop
  | other {stage stage' : Stage} (clear : Clear stage') (pointed : stage.pointed = none) (undone : stage.undone = none)
    (due : stage.due = []) : Moves store stage stage'
  | checking old new : Moves store (.checking old new) (.looking old new (store.resolve new))
  | looking {found : Name} (old new : Name) (h : store.Registered found) :
    Moves store (.looking old new found) (.verifying old new)
  | verifying {old : Name} (new : Name) (h : ¬store.Registered old) :
    Moves store (.verifying old new) (.peeking old new)
  | peeking old new : Moves store (.peeking old new) (.listing old new)
  | listing old new : Moves store (.listing old new) (.pointing old new)
  | pointing {old new : Name} (h : ∀ held, store.aliasOf.lookup old = some held → held = new) :
    Moves store (.pointing old new) .idle
  | refused {old new held : Name} (h : store.aliasOf.lookup old = some held) (hne : held ≠ new) :
    Moves store (.pointing old new) (.undoing old new)
  | undoing old new : Moves store (.undoing old new) .idle
  | restore rows : Moves store (.called (.restore rows)) (.restoring rows)
  | restoring row rows : Moves store (.restoring (row :: rows)) (.restoring rows)

theorem Clear.idle : Clear .idle :=
  ⟨rfl, rfl, rfl, rfl, rfl, rfl⟩

theorem advance_moves : Moves store stage (advance store mint stage).2.1 := by
  cases stage
  case checking old new => exact .checking old new
  case looking old new found =>
    simp only [advance]
    split
    case isTrue h => exact .looking old new h
    case isFalse  => exact .other .idle rfl rfl rfl
  case verifying old new =>
    simp only [advance]
    split
    case isTrue    => exact .other .idle rfl rfl rfl
    case isFalse h => exact .verifying new h
  case peeking old new =>
    simp only [advance]
    split
    case isTrue  => exact .other .idle rfl rfl rfl
    case isFalse => exact .peeking old new
  case listing old new => exact .listing old new
  case pointing old new =>
    simp only [advance]
    split
    case h_1 held hheld =>
      by_cases hne : held = new
      case pos =>
        rw [if_pos hne]
        exact .pointing fun held' h => Option.some.inj (h.symm.trans hheld) ▸ hne
      case neg =>
        rw [if_neg hne]
        exact .refused hheld hne
    case h_2 hnone => exact .pointing fun held h => by cases hnone.symm.trans h
  case undoing old new => exact .undoing old new
  case restoring rows =>
    cases rows
    case nil           => exact .other .idle rfl rfl rfl
    case cons row rows => exact .restoring row rows
  case minting tries =>
    cases tries
    case zero => exact .other .idle rfl rfl rfl
    case succ =>
      simp only [advance]
      split <;> exact .other ⟨rfl, rfl, rfl, rfl, rfl, rfl⟩ rfl rfl rfl
  case called call =>
    cases call
    case restore rows => exact .restore rows
    all_goals simp only [advance]
    all_goals try split
    all_goals exact .other ⟨rfl, rfl, rfl, rfl, rfl, rfl⟩ rfl rfl rfl
  all_goals simp only [advance]
  all_goals repeat' split
  all_goals exact .other ⟨rfl, rfl, rfl, rfl, rfl, rfl⟩ rfl rfl rfl

namespace Moves

variable {stage' : Stage}

theorem sought (m : Moves store stage stage') (h : stage'.sought = some (new, found)) :
    ∃ old, stage = .checking old new ∧ found = store.resolve new := by
  cases m
  case other _ _ _ clear => cases clear.sought.symm.trans h
  case checking old new' =>
    cases h
    exact ⟨old, rfl, rfl⟩
  all_goals cases h

theorem bound (m : Moves store stage stage') (h : stage'.bound = some (old, new)) :
    stage.bound = some (old, new) ∨ ∃ found, stage.sought = some (new, found) ∧ store.Registered found := by
  cases m
  case other _ _ _ clear => cases clear.bound.symm.trans h
  case looking found old' new' hf =>
    cases h
    exact .inr ⟨found, rfl, hf⟩
  case verifying => exact .inl h
  case peeking   => exact .inl h
  case listing   => exact .inl h
  all_goals cases h

theorem aliased (m : Moves store stage stage') (h : stage'.aliased = some old) :
    stage.aliased = some old ∨ (∃ new, stage = .verifying old new) ∧ ¬store.Registered old := by
  cases m
  case other _ _ _ clear => cases clear.aliased.symm.trans h
  case verifying old' new hn =>
    cases h
    exact .inr ⟨⟨new, rfl⟩, hn⟩
  case peeking => exact .inl h
  case listing => exact .inl h
  all_goals cases h

theorem pointed (m : Moves store stage stage') (h : stage'.pointed = some (old, new)) : stage = .listing old new := by
  cases m
  case other _ _ _ clear => cases clear.pointed.symm.trans h
  case listing =>
    cases h
    rfl
  all_goals cases h

theorem undone (m : Moves store stage stage') (h : stage'.undone = some (old, new)) :
    ∃ held, store.aliasOf.lookup old = some held ∧ held ≠ new := by
  cases m
  case other _ _ _ clear => cases clear.undone.symm.trans h
  case refused held hheld hne =>
    cases h
    exact ⟨held, hheld, hne⟩
  all_goals cases h

-- A name that a call has listed is still so for the call, or is an alias of nothing else, or goes from the list.
theorem listed (m : Moves store stage stage') (h : stage.pointed = some (old, new) ∨ stage.undone = some (old, new)) :
    stage'.undone = some (old, new) ∨
      stage = .pointing old new ∧ (∀ held, store.aliasOf.lookup old = some held → held = new) ∨
      stage = .undoing old new := by
  cases m
  case other hp hu _ _ => exact (h.elim (by simp [hp]) (by simp [hu]))
  case pointing hheld =>
    obtain h | h := h <;> cases h
    exact .inr (.inl ⟨rfl, hheld⟩)
  case refused =>
    obtain h | h := h <;> cases h
    exact .inl rfl
  case undoing =>
    obtain h | h := h <;> cases h
    exact .inr (.inr rfl)
  all_goals obtain h | h := h <;> cases h

theorem due (m : Moves store stage stage') (h : (old, name) ∈ stage.due) :
    (old, name) ∈ stage'.due ∨ ∃ rows, stage = .restoring (.aliasOf old name :: rows) := by
  cases m
  case other _ _ hd _ => simp [hd] at h
  case restoring row rows =>
    cases row
    case aliasOf old' name' =>
      obtain h | h := List.mem_cons.mp h
      case inl =>
        cases h
        exact .inr ⟨rows, rfl⟩
      case inr => exact .inl h
    all_goals exact .inl h
  all_goals cases h

end Moves

structure Aliased (s : State κ) : Prop where
  unaliased  : ∀ name, s.store.Registered name → s.Unaliased name
  registered : ∀ old name, s.store.aliasOf.lookup old = some name → s.store.Registered name
  found      : ∀ p new found, (s.stages p).sought = some (new, found) → found = new
  bound      : ∀ p old new, (s.stages p).bound = some (old, new) → s.store.Registered new
  listed     : ∀ old name, s.store.aliasOf.lookup old = some name → old ∈ s.store.aliases name
  owned      : ∀ old name, old ∈ s.store.aliases name → s.store.aliasOf.lookup old = some name ∨
    (∃ p, (s.stages p).pointed = some (old, name) ∨ (s.stages p).undone = some (old, name)) ∨
    s.store.aliasOf.lookup old = none ∧ ∃ p, (old, name) ∈ (s.stages p).due
  pointed    : ∀ p old new, (s.stages p).pointed = some (old, new) →
    old ∈ s.store.aliases new ∨ ∃ held, s.store.aliasOf.lookup old = some held ∧ held ≠ new
  undone     : ∀ p old new, (s.stages p).undone = some (old, new) →
    ∃ held, s.store.aliasOf.lookup old = some held ∧ held ≠ new

namespace Aliased

omit [DecidableEq κ] in
theorem initial (h : s.Initial) : Aliased s where
  unaliased name hr := ⟨h.consistent.unaliased name hr, by simp [h.idle, Stage.aliased]⟩
  registered        := h.consistent.registered
  found             := by simp [h.idle, Stage.sought]
  bound             := by simp [h.idle, Stage.bound]
  listed old name   := (h.consistent.listed old name).mpr
  owned old name    := fun ho => .inl ((h.consistent.listed old name).mp ho)
  pointed           := by simp [h.idle, Stage.pointed]
  undone            := by simp [h.idle, Stage.undone]

theorem call (h : Aliased s) {call : Call} : Aliased (Naming.step s (.call p call)) := by
  constructor
  case unaliased =>
    intro name hr
    rw [State.store_call] at hr
    have ⟨hn, ha⟩ := h.unaliased name hr
    exact ⟨by rwa [State.store_call], fun q hq => ha q (State.of_call rfl hq)⟩
  case registered => rw [State.store_call]; exact h.registered
  case found => exact fun q new found hq => h.found q new found (State.of_call rfl hq)
  case bound =>
    rw [State.store_call]
    exact fun q old new hq => h.bound q old new (State.of_call rfl hq)
  case listed => rw [State.store_call]; exact h.listed
  case pointed =>
    rw [State.store_call]
    exact fun q old new hq => h.pointed q old new (State.of_call rfl hq)
  case undone =>
    rw [State.store_call]
    exact fun q old new hq => h.undone q old new (State.of_call rfl hq)
  case owned =>
    intro old name ho
    rw [State.store_call] at ho ⊢
    obtain ha | ⟨q, hq⟩ | ⟨hn, q, hq⟩ := h.owned old name ho
    case inl => exact .inl ha
    case inr.inl =>
      refine .inr (.inl ⟨q, ?_⟩)
      rwa [State.stages_call_of_busy fun hs => by simp [hs, Stage.pointed, Stage.undone] at hq]
    case inr.inr =>
      refine .inr (.inr ⟨hn, q, ?_⟩)
      rwa [State.stages_call_of_busy fun hs => by simp [hs, Stage.due] at hq]

-- The step of a process, seen by the invariant.

theorem writes : Writes s.store (s.stages p) (Naming.step s (.step p mint)).store := by
  rw [State.store_step]
  exact effect_writes

theorem moves : Moves s.store (s.stages p) ((Naming.step s (.step p mint)).stages p) := by
  rw [State.stages_step, if_pos rfl]
  exact advance_moves

theorem stages_of_ne (hne : q ≠ p) : (Naming.step s (.step p mint)).stages q = s.stages q := by
  rw [State.stages_step, if_neg hne]

theorem step_unaliased_of (hu : s.Unaliased name)
    (hp : ∀ new, s.stages p ≠ .pointing name new) (hr : ∀ new rows, s.stages p ≠ .restoring (.aliasOf name new :: rows))
    (hv : (∃ new, s.stages p = .verifying name new) → s.store.Registered name) :
    (Naming.step s (.step p mint)).Unaliased name := by
  constructor
  case left =>
    apply Option.eq_none_iff_forall_ne_some.mpr
    intro new ha
    obtain ha | ⟨hs, _⟩ | ⟨rows, hs⟩ := writes.aliasOf ha
    case inl     => cases hu.left.symm.trans ha
    case inr.inl => exact hp new hs
    case inr.inr => exact hr new rows hs
  case right =>
    intro q hq
    by_cases hne : q = p
    case neg => exact hu.right q (stages_of_ne hne ▸ hq)
    case pos =>
      subst hne
      obtain ha | ⟨hs, hn⟩ := moves.aliased hq
      case inl => exact hu.right q ha
      case inr => exact hn (hv hs)

theorem step_unaliased (h : Aliased s) (hm : s.MeetsAt (s.stages p))
    (hr : (Naming.step s (.step p mint)).store.Registered name) : (Naming.step s (.step p mint)).Unaliased name := by
  obtain hr | ⟨row, hs⟩ | ⟨row, rows, hs⟩ := writes.registered hr
  case inl =>
    have hu := h.unaliased name hr
    apply step_unaliased_of hu
    case hp => exact fun new hs => hu.right p (by rw [hs]; rfl)
    case hr =>
      intro new rows hs
      rw [hs] at hm
      exact hm.2.1 hr
    case hv => exact fun _ => hr
  case inr.inl =>
    rw [hs] at hm
    apply step_unaliased_of hm <;> simp [hs]
  case inr.inr =>
    rw [hs] at hm
    apply step_unaliased_of hm <;> simp [hs]

theorem step_registered (h : Aliased s) (hm : s.MeetsAt (s.stages p))
    (ha : (Naming.step s (.step p mint)).store.aliasOf.lookup old = some name) :
    (Naming.step s (.step p mint)).store.Registered name := by
  apply writes.registered_mono
  obtain ha | ⟨hs, _⟩ | ⟨rows, hs⟩ := writes.aliasOf ha
  case inl     => exact h.registered old name ha
  case inr.inl => exact h.bound p old name (by rw [hs]; rfl)
  case inr.inr =>
    rw [hs] at hm
    exact hm.1

theorem step_found (h : Aliased s) (hm : s.MeetsAt (s.stages p))
    (hq : ((Naming.step s (.step p mint)).stages q).sought = some (new, found)) : found = new := by
  by_cases hne : q = p
  case neg => exact h.found q new found (stages_of_ne hne ▸ hq)
  case pos =>
    subst hne
    have ⟨old, hs, hf⟩ := moves.sought hq
    rw [hs] at hm
    rw [hf, Store.resolve, show s.store.aliasOf.lookup new = none from hm]
    rfl

theorem step_bound (h : Aliased s) (hq : ((Naming.step s (.step p mint)).stages q).bound = some (old, new)) :
    (Naming.step s (.step p mint)).store.Registered new := by
  apply writes.registered_mono
  by_cases hne : q = p
  case neg => exact h.bound q old new (stages_of_ne hne ▸ hq)
  case pos =>
    subst hne
    obtain hb | ⟨found, hs, hr⟩ := moves.bound hq
    case inl => exact h.bound q old new hb
    case inr => exact h.found q new found hs ▸ hr

-- A name that a list holds stays there while it is an alias of the list's owner or of nothing.
theorem mem_step (h : Aliased s) (hm : s.MeetsAt (s.stages p)) (ho : old ∈ s.store.aliases name)
    (ha : ∀ held, s.store.aliasOf.lookup old = some held → held = name) :
    old ∈ (Naming.step s (.step p mint)).store.aliases name := by
  obtain ho | hs := writes.mem_aliases_mono hm ho
  case inl => exact ho
  case inr =>
    have ⟨held, hheld, hne⟩ := h.undone p old name (by rw [hs]; rfl)
    exact (hne (ha held hheld)).elim

theorem step_listed (h : Aliased s) (hm : s.MeetsAt (s.stages p))
    (ha : (Naming.step s (.step p mint)).store.aliasOf.lookup old = some name) :
    old ∈ (Naming.step s (.step p mint)).store.aliases name := by
  obtain ha | ⟨hs, hnone⟩ | ⟨rows, hs⟩ := writes.aliasOf ha
  case inl => exact h.mem_step hm (h.listed old name ha) fun held hheld => Option.some.inj (hheld.symm.trans ha)
  case inr.inl =>
    obtain ho | ⟨held, hheld, -⟩ := h.pointed p old name (by rw [hs]; rfl)
    case inl => exact h.mem_step hm ho (by simp [hnone])
    case inr => cases hnone.symm.trans hheld
  case inr.inr =>
    have hm' := hm
    rw [hs] at hm'
    exact h.mem_step hm hm'.2.2.1 hm'.2.2.2.1

theorem step_pointed (h : Aliased s) (hm : s.MeetsAt (s.stages p))
    (hq : ((Naming.step s (.step p mint)).stages q).pointed = some (old, new)) :
    old ∈ (Naming.step s (.step p mint)).store.aliases new ∨
      ∃ held, (Naming.step s (.step p mint)).store.aliasOf.lookup old = some held ∧ held ≠ new := by
  by_cases hne : q = p
  case pos =>
    subst hne
    have hs := moves.pointed hq
    rw [State.store_step, hs, Stage.effect, Store.aliases_insert, if_pos rfl]
    exact .inl (Finset.mem_insert_self _ _)
  case neg =>
    obtain ho | ⟨held, hheld, hne'⟩ := h.pointed q old new (stages_of_ne hne ▸ hq)
    case inr => exact .inr ⟨held, writes.aliasOf_mono hm hheld, hne'⟩
    case inl =>
      obtain ho | hs := writes.mem_aliases_mono hm ho
      case inl => exact .inl ho
      case inr =>
        obtain ⟨held, hheld, hne'⟩ := h.undone p old new (by rw [hs]; rfl)
        exact .inr ⟨held, writes.aliasOf_mono hm hheld, hne'⟩

theorem step_undone (h : Aliased s) (hm : s.MeetsAt (s.stages p))
    (hq : ((Naming.step s (.step p mint)).stages q).undone = some (old, new)) :
    ∃ held, (Naming.step s (.step p mint)).store.aliasOf.lookup old = some held ∧ held ≠ new := by
  have hbefore : ∃ held, s.store.aliasOf.lookup old = some held ∧ held ≠ new := by
    by_cases hne : q = p
    case pos =>
      subst hne
      exact moves.undone hq
    case neg => exact h.undone q old new (stages_of_ne hne ▸ hq)
  have ⟨held, hheld, hne⟩ := hbefore
  exact ⟨held, writes.aliasOf_mono hm hheld, hne⟩

-- What a call has listed it still has to point or to take back, or the name is an alias by now.
theorem owned_of_listed (hm : s.MeetsAt (s.stages p))
    (ho : old ∈ (Naming.step s (.step p mint)).store.aliases name)
    (hq : (s.stages q).pointed = some (old, name) ∨ (s.stages q).undone = some (old, name)) :
    (Naming.step s (.step p mint)).store.aliasOf.lookup old = some name ∨
      ∃ q, ((Naming.step s (.step p mint)).stages q).pointed = some (old, name) ∨
        ((Naming.step s (.step p mint)).stages q).undone = some (old, name) := by
  by_cases hne : q = p
  case neg => exact .inr ⟨q, by rwa [stages_of_ne hne]⟩
  case pos =>
    subst hne
    obtain hu | ⟨hs, hheld⟩ | hs := (@moves κ _ s mint q).listed hq
    case inl => exact .inr ⟨q, .inr hu⟩
    case inr.inl =>
      cases ha : s.store.aliasOf.lookup old
      case none =>
        rw [State.store_step, hs, Stage.effect, if_pos ha, Finmap.lookup_insert]
        exact .inl rfl
      case some held => exact .inl (writes.aliasOf_mono hm (hheld held ha ▸ ha))
    case inr.inr =>
      rw [State.store_step, hs, Stage.effect, Store.aliases_insert, if_pos rfl] at ho
      simp at ho

-- What a restore has to write as an alias of one name becomes an alias of no other.
theorem owned_of_due (hm : s.MeetsAt (s.stages p)) (hn : s.store.aliasOf.lookup old = none)
    (hq : (old, name) ∈ (s.stages q).due) :
    (Naming.step s (.step p mint)).store.aliasOf.lookup old = some name ∨
      (Naming.step s (.step p mint)).store.aliasOf.lookup old = none ∧
        ∃ q, (old, name) ∈ ((Naming.step s (.step p mint)).stages q).due := by
  cases ha : (Naming.step s (.step p mint)).store.aliasOf.lookup old
  case some name' =>
    have hdue : s.DueOnly old name' := by
      obtain ha | ⟨hs, hnone⟩ | ⟨rows, hs⟩ := writes.aliasOf ha
      case inl => cases hn.symm.trans ha
      case inr.inl =>
        rw [hs] at hm
        exact hm hnone
      case inr.inr =>
        rw [hs] at hm
        exact hm.2.2.2.2
    exact .inl (congrArg some (hdue q _ hq rfl).symm)
  case none =>
    refine .inr ⟨rfl, q, ?_⟩
    by_cases hne : q = p
    case neg => rwa [stages_of_ne hne]
    case pos =>
      subst hne
      obtain hd | ⟨rows, hs⟩ := moves.due hq
      case inl => exact hd
      case inr =>
        rw [State.store_step, hs, Stage.effect, Store.write, Finmap.lookup_insert] at ha
        cases ha

theorem step_owned (h : Aliased s) (hm : s.MeetsAt (s.stages p))
    (ho : old ∈ (Naming.step s (.step p mint)).store.aliases name) :
    (Naming.step s (.step p mint)).store.aliasOf.lookup old = some name ∨
    (∃ q, ((Naming.step s (.step p mint)).stages q).pointed = some (old, name) ∨
      ((Naming.step s (.step p mint)).stages q).undone = some (old, name)) ∨
    (Naming.step s (.step p mint)).store.aliasOf.lookup old = none ∧
      ∃ q, (old, name) ∈ ((Naming.step s (.step p mint)).stages q).due := by
  obtain hold | hs | ⟨olds, rows, hs, hmem⟩ := writes.mem_aliases ho
  case inl =>
    obtain ha | ⟨q, hq⟩ | ⟨hn, q, hq⟩ := h.owned old name hold
    case inl     => exact .inl (writes.aliasOf_mono hm ha)
    case inr.inl => exact (owned_of_listed hm ho hq).imp_right .inl
    case inr.inr => exact (owned_of_due hm hn hq).imp_right .inr
  case inr.inl =>
    refine .inr (.inl ⟨p, .inl ?_⟩)
    rw [State.stages_step, if_pos rfl, hs]
    rfl
  case inr.inr =>
    have hm' := hm
    rw [hs] at hm'
    by_cases ha : s.store.aliasOf.lookup old = some name
    case pos => exact .inl (writes.aliasOf_mono hm ha)
    case neg =>
      have ⟨hn, hdue⟩ := hm'.right old hmem ha
      refine .inr (.inr ⟨?_, p, ?_⟩)
      case refine_1 =>
        rw [State.store_step, hs]
        exact hn
      case refine_2 =>
        rw [State.stages_step, if_pos rfl, hs]
        exact hdue

theorem step (h : Aliased s) (hm : s.MeetsAt (s.stages p)) : Aliased (Naming.step s (.step p mint)) where
  unaliased _          := h.step_unaliased hm
  registered _ _       := h.step_registered hm
  found _ _ _          := h.step_found hm
  bound _ _ _          := h.step_bound
  listed _ _           := h.step_listed hm
  owned _ _            := h.step_owned hm
  pointed _ _ _        := h.step_pointed hm
  undone _ _ _         := h.step_undone hm

end Aliased

end Naming

namespace Naming

open Run

variable {κ : Type} [DecidableEq κ] {s : State κ} {as : List (Action κ)}

structure Invariant (s : State κ) : Prop where
  counted : Counted s
  coded   : Coded s
  aliased : Aliased s

namespace Invariant

omit [DecidableEq κ] in
theorem initial (h : s.Initial) : Invariant s :=
  ⟨.initial h, .initial h, .initial h⟩

theorem step {a : Action κ} (h : Invariant s) (hm : s.Meets a) : Invariant (Naming.step s a) := by
  cases a
  case call => exact ⟨h.counted.call, h.coded.call, h.aliased.call⟩
  case step => exact ⟨h.counted.step hm, h.coded.step hm, h.aliased.step hm⟩

omit [DecidableEq κ] in
theorem resolve_eq (h : Invariant s) {name : Name} (hr : s.store.Registered name) : s.store.resolve name = name := by
  rw [Store.resolve, (h.aliased.unaliased name hr).left]
  rfl

omit [DecidableEq κ] in
theorem resolve_resolve (h : Invariant s) (name : Name) :
    s.store.resolve (s.store.resolve name) = s.store.resolve name := by
  cases ha : s.store.aliasOf.lookup name
  case none =>
    have hn : s.store.resolve name = name := by simp [Store.resolve, ha]
    rw [hn, hn]
  case some new =>
    have hn : s.store.resolve name = new := by simp [Store.resolve, ha]
    rw [hn]
    exact h.resolve_eq (h.aliased.registered name new ha)

omit [DecidableEq κ] in
-- With no alias call under way, what a list holds is an alias of its owner or of nothing yet.
theorem eq_of_mem (h : Invariant s) (hidle : ∀ p, ¬(s.stages p).Aliases) {old name other : Name}
    (ha : s.store.aliasOf.lookup old = some name) (ho : old ∈ s.store.aliases other) : other = name := by
  obtain ha' | ⟨q, hq⟩ | ⟨hn, _⟩ := h.aliased.owned old other ho
  case inl     => exact Option.some.inj (ha'.symm.trans ha)
  case inr.inr => cases hn.symm.trans ha
  case inr.inl =>
    apply (hidle q _).elim
    cases hs : s.stages q
    all_goals simp [hs, Stage.pointed, Stage.undone] at hq
    all_goals trivial

omit [DecidableEq κ] in
theorem stable (h : Invariant s) : s.Stable where
  unique                   := h.counted.nodup
  recorded                 := h.coded.recorded
  registered _             := h.resolve_eq
  resolved                 := h.resolve_resolve
  listed hidle old name ha := ⟨h.aliased.listed old name ha, fun _ ho => h.eq_of_mem hidle ha ho⟩

end Invariant

theorem run_stable (h : s.Initial) (hm : Along step State.Meets s as) : (run step s as).Stable :=
  (hm.invariant (I := Invariant) (fun _ _ hi => hi.step) (.initial h)).stable

def start : State Unit :=
  ⟨.empty, fun _ => .idle, []⟩

theorem start_initial : start.Initial where
  idle _     := rfl
  returned   := rfl
  consistent := by
    constructor
    all_goals simp [start, Store.empty, Store.Registered, Store.aliases]

def minted : List (Action Unit) :=
  [.call () (.mintCode "rig-swarm" "rig" "tools"), .step () "", .step () "0a1b2c", .step () "",
   .call () (.next "rig-swarm" .engineer 1), .step () "", .step () "", .step () ""]

-- A legacy name becomes an alias of a name that was given.
theorem run_stable_aliased : (run step start (minted ++ [
    .call () (.«alias» (.other "rig-eng-1") (.agent .engineer "0a1b2c" 1)), .step () "", .step () "", .step () "",
    .step () "", .step () "", .step () "", .step () ""])).Stable := by
  apply run_stable start_initial
  refine ⟨trivial, trivial, trivial, trivial, trivial, trivial, trivial, ⟨rfl, ?named⟩, trivial, trivial, ?checked,
    trivial, trivial, trivial, trivial, ?pointed, trivial⟩
  case checked => exact rfl
  case named =>
    intro _ hp
    cases hp
  case pointed =>
    intro _ _ due hd
    cases hd

-- The swarm's names are exported, one more is given, the export is restored, and `next` is called again.
def restored : List (Action Unit) :=
  minted ++ [.call () (.next "rig-swarm" .engineer 2), .step () "", .step () "", .step () "",
    -- No name has an alias to be sorted.
    .call () (.restore ((run step start minted).store.export (fun _ => []) "rig-swarm")), .step () "", .step () "",
    .step () "", .step () "", .step () "", .step () "", .step () "",
    .call () (.next "rig-swarm" .engineer 3), .step () "", .step () "", .step () ""]

theorem restored_not_stable : ¬(run step start restored).Stable := by
  intro h
  have hr : (run step start restored).returned =
      [.agent .engineer "0a1b2c" 1, .agent .engineer "0a1b2c" 2, .agent .engineer "0a1b2c" 2] := by
    decide +kernel
  have hu := h.unique
  rw [hr] at hu
  exact absurd hu (by decide)

end Naming
