import Agentihooks.Spool.Theorems.Data

namespace Spool

variable {config : Config} {s s' s₁ : State} {name : Name} {names : List Name} {entry : Entry} {file : File} {ack : Ack}
variable {lost : Bool} {id : ℕ} {stage : Stage} {choice : Choice}

section Stages

-- The stages in which a call has the lock of the spool, and those in which it has that of the flushes.
def Stage.Spools : Stage → Prop
  | .appendAck .. | .appendFiles .. | .appendSize .. | .appendWrite .. => True
  | .statusAck | .statusFiles _                                       => True
  | .settleAck .. | .settleWrite .. | .settleRemove ..                => True
  | _                                                                 => False

def Stage.Flushes : Stage → Prop
  | .flushFiles | .flushRead _ | .flushUpload ..                                  => True
  | .settle .. | .settleAck .. | .settleWrite .. | .settleRemove ..              => True
  | _                                                                             => False

-- The files that a flush still has to settle come before all others that are not settled.
structure Left (s : State) (names : List Name) : Prop where
  sorted : names.Pairwise fun a b => a.sequence < b.sequence
  mem    : ∀ name ∈ names, name ∈ s.unsettled
  rest   : ∀ name ∈ s.unsettled, name ∈ names ∨ ∀ first ∈ names, first.sequence < name.sequence

def Done (s : State) (name : Name) (lost : Bool) : Prop :=
  lost = false → ∃ entry ∈ s.accepted, entry.sequence = name.sequence

def Stage.Sound (config : Config) (s : State) : Stage → Prop
  | .appendFiles identity _ ack      => ack = s.known ∧ ¬ s.known.recalls (config.key identity)
  | .appendSize identity _ ack names => ack = s.known ∧ names = s.unsettled ∧ ¬ s.known.recalls (config.key identity) ∧
      buffered s.batches s.unsettled (config.key identity) = none
  | .appendWrite name entry          => name = entry.path config ∧ Fresh config s entry
  | .flushRead f                     => Left s (f.name :: f.left)
  | .flushUpload f entry             => Left s (f.name :: f.left) ∧ entry ∈ s.appended ∧ entry.sequence = f.name.sequence
  | .settle f lost                   => Left s (f.name :: f.left) ∧ Done s f.name lost
  | .settleAck f lost                => Left s (f.name :: f.left) ∧ Done s f.name lost
  | .settleWrite f lost ack          => ack = s.known ∧ Left s (f.name :: f.left) ∧ Done s f.name lost
  | .settleRemove f _                => Left s f.left ∧ f.name.sequence ≤ s.settled
  | _                                => True

end Stages

structure Sound (config : Config) (s : State) : Prop where
  data  : Data config s
  spool : ∀ id stage, s.calls id = some stage → stage.Spools → s.spoolLock = some id
  flush : ∀ id stage, s.calls id = some stage → stage.Flushes → s.flushLock = some id
  calls : ∀ id stage, s.calls id = some stage → stage.Sound config s

theorem Sound.empty : Sound config empty where
  data  := data_empty
  spool := by simp [Spool.empty]
  flush := by simp [Spool.empty]
  calls := by simp [Spool.empty]

section Frames

-- What a holder of the lock of the spool has read is still so, but for entries that have become unreadable.
structure Steady (s s' : State) : Prop where
  known     : s'.known = s.known
  appended  : s'.appended = s.appended
  unsettled : s'.unsettled = s.unsettled
  read      : ∀ name entry, read s'.batches name = some entry → read s.batches name = some entry
  bytes     : ∀ names, bytes s'.batches names ≤ bytes s.batches names

-- What a holder of the lock of the flushes relies on: new files come after all that are there.
structure Onward (s s' : State) : Prop where
  known    : s'.known = s.known
  appended : s.appended ⊆ s'.appended
  accepted : s.accepted ⊆ s'.accepted
  kept     : s.unsettled ⊆ s'.unsettled
  new      : ∀ name ∈ s'.unsettled, name ∈ s.unsettled ∨ ∀ old ∈ s.unsettled, old.sequence < name.sequence

theorem Left.onward (h : Left s names) (ho : Onward s s') : Left s' names where
  sorted := h.sorted
  mem    := fun name hn => ho.kept (h.mem name hn)
  rest   := by
    intro name hn
    obtain hold | hnew := ho.new name hn
    · exact h.rest name hold
    · exact .inr fun first hf => hnew first (h.mem first hf)

theorem Done.onward (h : Done s name lost) (ho : Onward s s') : Done s' name lost := by
  intro hl
  obtain ⟨entry, he, hs⟩ := h hl
  exact ⟨entry, ho.accepted he, hs⟩

theorem buffered_steady {key : String} (h : buffered s.batches s.unsettled key = none) (hs : Steady s s') :
    buffered s'.batches s'.unsettled key = none := by
  rw [hs.unsettled, buffered_eq_none]
  intro name hn hk
  by_contra hr
  obtain ⟨entry, he⟩ := Option.ne_none_iff_exists'.mp hr
  have hnone := buffered_eq_none.mp h name hn hk
  rw [hs.read name entry he] at hnone
  cases hnone

theorem Fresh.steady (h : Fresh config s entry) (hs : Steady s s') : Fresh config s' entry where
  above    := by rw [hs.appended]; exact h.above
  settled  := by rw [State.settled, hs.known]; exact h.settled
  recalls  := by rw [hs.known]; exact h.recalls
  buffered := buffered_steady h.buffered hs
  room     := by
    have hle : bytes s'.batches s'.unsettled ≤ bytes s.batches s.unsettled := hs.unsettled ▸ hs.bytes _
    have hroom := h.room
    omega

theorem Stage.Sound.frame (h : stage.Sound config s) (hs : stage.Spools → Steady s s') (ho : stage.Flushes → Onward s s') :
    stage.Sound config s' := by
  cases stage with
  | appendFiles  => rw [Stage.Sound, (hs trivial).known]; exact h
  | appendSize   =>
    obtain ⟨hack, hnames, hrecalls, hbuffered⟩ := h
    rw [Stage.Sound, (hs trivial).known]
    refine ⟨hack, hnames.trans (hs trivial).unsettled.symm, hrecalls, buffered_steady hbuffered (hs trivial)⟩
  | appendWrite  => exact ⟨h.left, h.right.steady (hs trivial)⟩
  | flushRead    => exact Left.onward h (ho trivial)
  | flushUpload  => exact ⟨h.left.onward (ho trivial), (ho trivial).appended h.right.left, h.right.right⟩
  | settle       => exact ⟨h.left.onward (ho trivial), h.right.onward (ho trivial)⟩
  | settleAck    => exact ⟨h.left.onward (ho trivial), h.right.onward (ho trivial)⟩
  | settleWrite  =>
    obtain ⟨hack, hleft, hdone⟩ := h
    exact ⟨hack.trans (hs trivial).known.symm, hleft.onward (ho trivial), hdone.onward (ho trivial)⟩
  | settleRemove =>
    obtain ⟨hleft, hle⟩ := h
    refine ⟨hleft.onward (ho trivial), ?_⟩
    rw [State.settled, (hs trivial).known]
    exact hle
  | _            => trivial

-- A step of one call leaves the others, and the locks that they have, alone.
structure Moves (id : ℕ) (s s' : State) : Prop where
  calls : ∀ other ≠ id, s'.calls other = s.calls other
  spool : ∀ other ≠ id, s.spoolLock = some other → s'.spoolLock = some other
  flush : ∀ other ≠ id, s.flushLock = some other → s'.flushLock = some other

theorem Sound.advance (h : Sound config s) (hd : Data config s') (hm : Moves id s s')
    (hsteady : s.spoolLock ≠ some id → Steady s s') (honward : s.flushLock ≠ some id → Onward s s')
    (hself : ∀ stage, s'.calls id = some stage → (stage.Spools → s'.spoolLock = some id) ∧
      (stage.Flushes → s'.flushLock = some id) ∧ stage.Sound config s') : Sound config s' where
  data  := hd
  spool := by
    intro other stage hc
    by_cases ho : other = id
    case pos => subst ho; exact (hself stage hc).left
    case neg => exact fun hs => hm.spool other ho (h.spool other stage (hm.calls other ho ▸ hc) hs)
  flush := by
    intro other stage hc
    by_cases ho : other = id
    case pos => subst ho; exact (hself stage hc).right.left
    case neg => exact fun hs => hm.flush other ho (h.flush other stage (hm.calls other ho ▸ hc) hs)
  calls := by
    intro other stage hc
    by_cases ho : other = id
    case pos => subst ho; exact (hself stage hc).right.right
    case neg =>
      have hold := hm.calls other ho ▸ hc
      refine (h.calls other stage hold).frame (fun hs => hsteady ?_) fun hf => honward ?_
      · rw [h.spool other stage hold hs]
        simpa using ho
      · rw [h.flush other stage hold hf]
        simpa using ho

end Frames

section Changes

theorem Alike.known (h : Alike s s') : s'.known = s.known := by
  rw [State.known, State.known, h.ack]

theorem Alike.unsettled (h : Alike s s') : s'.unsettled = s.unsettled := by
  rw [State.unsettled, State.unsettled, State.settled, State.settled, h.batches, h.known]

theorem Alike.steady (h : Alike s s') : Steady s s' where
  known     := h.known
  appended  := h.appended
  unsettled := h.unsettled
  read      := by rw [h.batches]; exact fun _ _ => id
  bytes     := by rw [h.batches]; exact fun _ => le_rfl

theorem Alike.onward (h : Alike s s') : Onward s s' where
  known    := h.known
  appended := by rw [h.appended]; exact fun _ => id
  accepted := by rw [h.accepted]; exact fun _ => id
  kept     := by rw [h.unsettled]; exact fun _ => id
  new      := by rw [h.unsettled]; exact fun _ => .inl

theorem Steady.trans {s₂ : State} (h : Steady s s₁) (h' : Steady s₁ s₂) : Steady s s₂ where
  known     := h'.known.trans h.known
  appended  := h'.appended.trans h.appended
  unsettled := h'.unsettled.trans h.unsettled
  read      := fun name entry hr => h.read name entry (h'.read name entry hr)
  bytes     := fun names => (h'.bytes names).trans (h.bytes names)

-- Nothing but an alteration of locks and calls follows on a change.
theorem Onward.alike {s₂ : State} (h : Onward s s₁) (h' : Alike s₁ s₂) : Onward s s₂ where
  known    := h'.known.trans h.known
  appended := by rw [h'.appended]; exact h.appended
  accepted := by rw [h'.accepted]; exact h.accepted
  kept     := by rw [h'.unsettled]; exact h.kept
  new      := by rw [h'.unsettled]; exact h.new

theorem onward_append (h : Data config s) (hf : Fresh config s entry) {length : ℕ} :
    Onward s (s.appended_ (entry.path config) entry length) where
  known    := rfl
  appended := List.subset_append_left _ _
  accepted := fun _ => id
  kept     := by
    intro name hn
    obtain ⟨hm, hup⟩ := State.mem_unsettled.mp hn
    exact State.mem_unsettled.mpr ⟨Finmap.mem_insert.mpr (.inr hm), hup⟩
  new      := by
    intro name hn
    obtain ⟨hm, hup⟩ := State.mem_unsettled.mp hn
    obtain rfl | hold := Finmap.mem_insert.mp hm
    · refine .inr fun old ho => ?_
      obtain ⟨a, ha, rfl⟩ := h.named old (State.mem_unsettled.mp ho).left
      exact hf.above a ha
    · exact .inl (State.mem_unsettled.mpr ⟨hold, hup⟩)

theorem steady_upload {accepted : Bool} : Steady s (s.upload entry accepted) :=
  ⟨rfl, rfl, rfl, fun _ _ => id, fun _ => le_rfl⟩

theorem accepted_upload {accepted : Bool} : s.accepted ⊆ (s.upload entry accepted).accepted := by
  simp only [State.upload]
  split
  case isTrue  => exact List.subset_append_left _ _
  case isFalse => exact fun _ => id

theorem onward_upload {accepted : Bool} : Onward s (s.upload entry accepted) :=
  ⟨rfl, fun _ => id, accepted_upload, fun _ => id, fun _ => .inl⟩

theorem unsettled_remove (hle : name.sequence ≤ s.settled) : (s.remove name).unsettled = s.unsettled := by
  change pending (s.batches.erase name) s.settled = pending s.batches s.settled
  rw [pending, pending]
  congr 1
  rw [Finmap.keys_erase, Finset.filter_erase]
  exact Finset.erase_eq_of_notMem (by simp [not_lt.mpr hle])

theorem size_remove {other : Name} : size (s.batches.erase name) other ≤ size s.batches other := by
  by_cases ho : other = name
  case pos =>
    rw [ho, size, Finmap.lookup_erase]
    exact Nat.zero_le _
  case neg => rw [size_erase_of_ne ho]

theorem steady_remove (hle : name.sequence ≤ s.settled) : Steady s (s.remove name) where
  known     := rfl
  appended  := rfl
  unsettled := unsettled_remove hle
  read      := fun _ _ => read_erase
  bytes     := fun _ => List.sum_le_sum fun _ _ => size_remove

theorem onward_remove (hle : name.sequence ≤ s.settled) : Onward s (s.remove name) where
  known    := rfl
  appended := fun _ => id
  accepted := fun _ => id
  kept     := by rw [unsettled_remove hle]; exact fun _ => id
  new      := by rw [unsettled_remove hle]; exact fun _ => .inl

theorem steady_corrupt (hs : Spoils s name file) (hm : name ∈ s.batches) :
    Steady s { s with batches := s.batches.insert name file } where
  known     := rfl
  appended  := rfl
  unsettled := pending_spoiled hm
  read      := fun _ _ => read_spoiled hs
  bytes     := fun _ => bytes_spoiled hs

theorem onward_corrupt (hm : name ∈ s.batches) : Onward s { s with batches := s.batches.insert name file } where
  known    := rfl
  appended := fun _ => id
  accepted := fun _ => id
  kept     := by
    change s.unsettled ⊆ pending (s.batches.insert name file) s.settled
    rw [pending_spoiled hm]
    exact fun _ => id
  new      := by
    change ∀ n ∈ pending (s.batches.insert name file) s.settled, _
    rw [pending_spoiled hm]
    exact fun _ => .inl

end Changes

section Moves

theorem moves_goTo (hc : s₁.calls = s.calls) (hs : s₁.spoolLock = s.spoolLock) (hf : s₁.flushLock = s.flushLock) :
    Moves id s (s₁.goTo id stage) where
  calls := fun other ho => (Function.update_of_ne ho _ _).trans (congrFun hc other)
  spool := fun _ _ h => hs.trans h
  flush := fun _ _ h => hf.trans h

theorem moves_leave (hc : s₁.calls = s.calls) (hs : s₁.spoolLock = s.spoolLock) (hf : s₁.flushLock = s.flushLock) :
    Moves id s (s₁.leave id) where
  calls := fun other ho => (Function.update_of_ne ho _ _).trans (congrFun hc other)
  spool := by
    intro other ho h
    have hne : s₁.spoolLock ≠ some id := by rw [hs, h]; simpa using ho
    simp only [State.leave, if_neg hne]
    exact hs.trans h
  flush := by
    intro other ho h
    have hne : s₁.flushLock ≠ some id := by rw [hf, h]; simpa using ho
    simp only [State.leave, if_neg hne]
    exact hf.trans h

theorem moves_spool (h : s.spoolLock = none) : Moves id s ({ s with spoolLock := some id }.goTo id stage) where
  calls := fun _ ho => Function.update_of_ne ho _ _
  spool := fun _ _ hs => absurd (h.symm.trans hs) (by simp)
  flush := fun _ _ hf => hf

theorem moves_flush (h : s.flushLock = none) : Moves id s ({ s with flushLock := some id }.goTo id stage) where
  calls := fun _ ho => Function.update_of_ne ho _ _
  spool := fun _ _ hs => hs
  flush := fun _ _ hf => absurd (h.symm.trans hf) (by simp)

theorem alike_goTo : Alike s (s.goTo id stage) :=
  ⟨rfl, rfl, rfl, rfl, rfl, rfl⟩

theorem alike_leave : Alike s (s.leave id) :=
  ⟨rfl, rfl, rfl, rfl, rfl, rfl⟩

theorem calls_leave : (s.leave id).calls id = none :=
  Function.update_self _ _ _

theorem calls_goTo {found : Stage} (h : (s.goTo id stage).calls id = some found) : found = stage := by
  simpa [State.goTo] using h.symm

-- A call that ends leaves the rest sound.
theorem Sound.leave (h : Sound config s) : Sound config (s.leave id) :=
  h.advance (h.data.alike alike_leave) (moves_leave rfl rfl rfl) (fun _ => alike_leave.steady) (fun _ => alike_leave.onward)
    fun stage hc => absurd (calls_leave.symm.trans hc) (by simp)

theorem Sound.goTo (h : Sound config s) (hs : stage.Spools → s.spoolLock = some id) (hf : stage.Flushes → s.flushLock = some id)
    (hstage : stage.Sound config s) : Sound config (s.goTo id stage) := by
  refine h.advance (h.data.alike alike_goTo) (moves_goTo rfl rfl rfl) (fun _ => alike_goTo.steady)
    (fun _ => alike_goTo.onward) fun found hc => ?_
  cases calls_goTo hc
  exact ⟨hs, hf, hstage.frame (fun _ => alike_goTo.steady) fun _ => alike_goTo.onward⟩

theorem Sound.lockSpool (h : Sound config s) (hfree : s.spoolLock = none) (hf : stage.Flushes → s.flushLock = some id)
    (hstage : stage.Sound config s) : Sound config ({ s with spoolLock := some id }.goTo id stage) := by
  have halike : Alike s ({ s with spoolLock := some id }.goTo id stage) := ⟨rfl, rfl, rfl, rfl, rfl, rfl⟩
  refine h.advance (h.data.alike halike) (moves_spool hfree) (fun _ => halike.steady) (fun _ => halike.onward) fun found hc => ?_
  cases calls_goTo hc
  exact ⟨fun _ => rfl, hf, hstage.frame (fun _ => halike.steady) fun _ => halike.onward⟩

theorem Sound.lockFlush (h : Sound config s) (hfree : s.flushLock = none) (hs : stage.Spools → s.spoolLock = some id)
    (hstage : stage.Sound config s) : Sound config ({ s with flushLock := some id }.goTo id stage) := by
  have halike : Alike s ({ s with flushLock := some id }.goTo id stage) := ⟨rfl, rfl, rfl, rfl, rfl, rfl⟩
  refine h.advance (h.data.alike halike) (moves_flush hfree) (fun _ => halike.steady) (fun _ => halike.onward) fun found hc => ?_
  cases calls_goTo hc
  exact ⟨hs, fun _ => rfl, hstage.frame (fun _ => halike.steady) fun _ => halike.onward⟩

end Moves

end Spool
