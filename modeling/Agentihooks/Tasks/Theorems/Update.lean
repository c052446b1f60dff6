import Mathlib.Tactic.Tauto
import Agentihooks.Tasks.Operations

namespace Tasks

-- What the delivery of a task depends on. An update writes these as its author asks, and nothing derives them.
def Field.core (f : Field) : Bool :=
  f ∈ [state, claimedBy, claimGeneration, prUrl, proof, done]

def Agree (a b : Fields) : Prop :=
  ∀ f : Field, f.core = true → a f = b f

namespace Agree

variable {a b c : Fields} {f : Field} {v : f.Value}

@[simp]
theorem refl : Agree a a :=
  fun _ _ => rfl

theorem trans (h : Agree a b) (h' : Agree b c) : Agree a c :=
  fun f hf => (h f hf).trans (h' f hf)

theorem unset (hf : f.core = false) (h : Agree a b) : Agree (Function.update a f none) b := by
  intro g hg
  rw [Function.update_of_ne fun he => by simp [← he, hg] at hf]
  exact h g hg

theorem put (hf : f.core = false) (h : Agree a b) : Agree (a.put f v) b := by
  intro g hg
  rw [Fields.put, Function.update_of_ne fun he => by simp [← he, hg] at hf]
  exact h g hg

theorem setDefault (hf : f.core = false) (h : Agree a b) : Agree (a.setDefault f v) b := by
  unfold Fields.setDefault
  split_ifs
  · exact h
  · exact h.put hf

theorem ite {p : Prop} [Decidable p] (ha : Agree a c) (hb : Agree b c) : Agree (if p then a else b) c := by
  split_ifs
  · exact ha
  · exact hb

end Agree

section Derived

variable {ports : Ports} {s : State} {doc : Document} {op : Request} {fields task : Fields} {phase : Option Phase}

theorem agree_withPlanSlice : Agree (withPlanSlice doc fields) fields := by
  unfold withPlanSlice
  refine .ite (((Agree.refl.unset rfl).unset rfl).put rfl) ?_
  split
  · exact .refl
  · exact .ite .refl (.put rfl .refl)

theorem agree_movePlan : Agree (movePlan doc task fields phase) fields := by
  have moved : Agree (fields.put .planLines "") fields := .put rfl .refl
  unfold movePlan
  refine .ite .refl (.ite (.setDefault rfl ?_) ?_)
  all_goals
    refine .setDefault rfl (.ite (.setDefault rfl ?_) (.ite (.setDefault rfl ?_) ?_))
    all_goals exact .ite (moved.put rfl) moved

theorem agree_setSlice (h : setSlice ports doc op = .ok fields) : Agree fields op.fields := by
  unfold setSlice at h
  split at h
  case h_1 => cases h; exact .refl
  case h_2 task _ =>
    split_ifs at h
    · cases h
      exact .refl
    · extract_lets _ _ moved at h
      have hm : Agree moved op.fields := agree_movePlan
      split_ifs at h
      · exact Except.ok.inj h ▸ .put rfl (.put rfl (.put rfl hm))
      · split at h
        case h_1 => exact Except.ok.inj h ▸ hm
        case h_2 =>
          split at h
          case h_1 => cases h
          case h_2 =>
            extract_lets lines at h
            have hl : Agree lines op.fields := .put rfl hm
            split_ifs at h
            · exact Except.ok.inj h ▸ hl
            · split at h
              · cases h
              · exact Except.ok.inj h ▸ hl

theorem agree_sized : Agree (sized fields) fields := by
  unfold sized
  exact .ite .refl (.setDefault rfl (.setDefault rfl .refl))

theorem agree_normalized {a b : Fields} (h : normalized a = .ok b) : Agree b a := by
  unfold normalized at h
  split at h
  case h_1 => cases h; exact agree_sized
  case h_2 =>
    split at h
    · cases h
    · cases h
      exact agree_sized.trans (.put rfl .refl)

theorem agree_updateFields : Agree (updateFields task fields) fields := by
  unfold updateFields
  extract_lets merged branches moved
  have hm : Agree merged fields := by
    unfold merged
    split
    · exact .refl
    · exact .put rfl .refl
  have hb : Agree moved fields := by
    unfold moved
    split
    · exact .ite (.put rfl hm) hm
    · exact hm
  exact .ite (.put rfl hb) hb

end Derived

section Written

variable {ports : Ports} {s : State} {op : Request} {task fields patch : Fields} {f g : Field}

def generation (t : Fields) : ℕ :=
  (t .claimGeneration).getD 0

theorem patched_put_ne {v : g.Value} (h : f ≠ g) : task.patched (patch.put g v) f = task.patched patch f :=
  PartialRecord.patched_update h

-- To write a field of the update once more changes nothing.
theorem patched_put_again {v : g.Value} (hv : fields g = some v)
    (h : task.patched patch f = task.patched fields f) :
    task.patched (patch.put g v) f = task.patched fields f := by
  by_cases hf : f = g
  case pos =>
    subst hf
    exact PartialRecord.patched_update_self.trans (PartialRecord.patched_some hv).symm
  case neg => exact (patched_put_ne hf).trans h

-- Besides the generation, what changes is what the update's fields say.
theorem patched_changed (hg : f ≠ .claimGeneration) :
    task.patched (changed ports s task fields op) f = task.patched fields f := by
  unfold changed
  extract_lets basic counted ranked
  have hb : task.patched basic f = task.patched fields f := congrFun PartialRecord.patched_changed f
  have hc : task.patched counted f = task.patched fields f := by
    unfold counted
    split_ifs
    · exact (patched_put_ne hg).trans hb
    · exact hb
  have hr : task.patched ranked f = task.patched fields f := by
    unfold ranked
    split
    case h_1         => exact hc
    case h_2 rank he =>
      split_ifs
      · exact patched_put_again he hc
      · exact hc
  split_ifs with hs
  · exact patched_put_again hs.left hr
  · exact hr

theorem applied_apply (hd : f ≠ .done) : applied task patch f = task.patched patch f := by
  unfold applied
  cases patch .state
  case none   => rfl
  case some _ => exact Function.update_of_ne hd ..

theorem ite_put {p : Prop} [Decidable p] {v : g.Value} (h : f ≠ g) :
    (if p then patch.put g v else patch) f = patch f := by
  split_ifs
  · exact Function.update_of_ne h ..
  · rfl

theorem changed_claimGeneration (hn : fields .claimGeneration = none) :
    changed ports s task fields op .claimGeneration =
      if (task.changed fields .claimedBy).isSome then some (generation task + 1) else none := by
  have hb : task.changed fields .claimGeneration = none := PartialRecord.changed_eq_none.mpr (.inl hn)
  have hc : (if (task.changed fields .claimedBy).isSome then
        (task.changed fields).put .claimGeneration (generation task + 1) else task.changed fields) .claimGeneration =
      if (task.changed fields .claimedBy).isSome then some (generation task + 1) else none := by
    split_ifs
    · exact Function.update_self ..
    · exact hb
  unfold changed
  rw [ite_put (by decide)]
  cases fields .rank
  case none   => exact hc
  case some _ => exact (ite_put (by decide)).trans hc

-- The generation counts the changes of the owner.
def Counted (before after : Fields) : Prop :=
  generation after = generation before + if after .claimedBy = before .claimedBy then 0 else 1

theorem counted_applied (hn : fields .claimGeneration = none) :
    Counted task (applied task (changed ports s task fields op)) := by
  have ho : applied task (changed ports s task fields op) .claimedBy = task.patched fields .claimedBy :=
    (applied_apply (by decide)).trans (patched_changed (by decide))
  have hg : applied task (changed ports s task fields op) .claimGeneration =
      task.patched (changed ports s task fields op) .claimGeneration :=
    applied_apply (by decide)
  unfold Counted generation
  rw [ho, hg, Fields.patched, PartialRecord.patched, changed_claimGeneration hn]
  cases hc : task.changed fields .claimedBy
  case none =>
    have hs : task.patched fields .claimedBy = task .claimedBy := by
      obtain h | h := PartialRecord.changed_eq_none.mp hc
      · exact PartialRecord.patched_none h
      · simp [Fields.patched, PartialRecord.patched, h]
    simp [hs]
  case some by_ =>
    obtain ⟨hf, hne⟩ := PartialRecord.changed_eq_some.mp hc
    have hs : task.patched fields .claimedBy = some by_ := PartialRecord.patched_some hf
    have hne : ¬some by_ = task .claimedBy := fun he => hne he.symm
    rw [hs, if_neg hne]
    rfl

end Written

section Proof

variable {ports : Ports} {doc : Document} {id : String} {a b t : Fields}

-- The proof that the kind of a task demands, and for a plan its slices: tasks of its phase, each with its part of the
-- published plan.
structure Proved (ports : Ports) (doc : Document) (t : Fields) : Prop where
  contract : t.unmet = []
  slices   : t.kindOf = .plan → invalidSlice t doc = [] ∧ unlinkedSlice t doc = [] ∧ invalidTasks ports t doc = []

theorem sliceRefusal_eq_none (h : sliceRefusal ports id t doc = none) :
    invalidSlice t doc = [] ∧ unlinkedSlice t doc = [] ∧ invalidTasks ports t doc = [] := by
  unfold sliceRefusal at h
  split_ifs at h with hi hu hr
  exact ⟨not_not.mp hi, not_not.mp hu, not_not.mp hr⟩

theorem proved_of_doneRefusal (h : doneRefusal ports id t doc = none) (hd : t .state = some .done) :
    Proved ports doc t := by
  unfold doneRefusal at h
  rw [if_neg (not_not.mpr hd)] at h
  split_ifs at h with hu hp
  · exact ⟨not_not.mp hu, fun _ => sliceRefusal_eq_none h⟩
  · exact ⟨not_not.mp hu, fun hk => absurd hk hp⟩

theorem unmet_congr (hk : a .kind = b .kind) (hc : a .contract = b .contract) (hp : a .proof = b .proof) :
    a.unmet = b.unmet := by
  have hk : a.kindOf = b.kindOf := by rw [Fields.kindOf, Fields.kindOf, hk]
  have ha : a.after = b.after := by rw [Fields.after, Fields.after, hk, hc]
  unfold Fields.unmet
  rw [hk, ha, hp]

theorem Proved.congr (h : Proved ports doc a) (hk : b .kind = a .kind) (hc : b .contract = a .contract)
    (hp : b .proof = a .proof) (hf : b .phase = a .phase) : Proved ports doc b where
  contract := (unmet_congr hk hc hp).trans h.contract
  slices   := by
    have hs : sliceIds b = sliceIds a := by rw [sliceIds, sliceIds, hp]
    intro hb
    have ha := h.slices ((congrArg (·.getD Kind.code) hk).symm.trans hb)
    simpa only [invalidSlice, unlinkedSlice, invalidTasks, hs, hf] using ha

end Proof

section Update

variable {ports : Ports} {s s' : State} {mark : ℤ × ℕ} {op : Request} {task : Task} {fields : Fields} {b : Bool}

-- The document, its stamps and its receipts are as they were.
structure State.Same (s' s : State) : Prop where
  doc      : s'.doc = s.doc
  stamps   : s'.stamps = s.stamps
  outcomes : s'.outcomes = s.outcomes

theorem State.Same.refl : s.Same s :=
  ⟨rfl, rfl, rfl⟩

theorem State.same_refuse {reason : String} : (s.refuse reason).Same s :=
  ⟨rfl, rfl, rfl⟩

-- An update that lands on a task with the fields that it comes to.
structure Lands (ports : Ports) (s : State) (op : Request) (task : Task) (fields : Fields) : Prop where
  found  : s.doc.task op.task = some task
  free   : gated ports s op task = false
  free'  : updateRefusal ports s op task = none
  agrees : Agree fields op.fields
  proved : doneRefusal ports op.task (task.fields.patched fields) s.doc = none

-- All that an update does: it is refused, or gated, or it writes what it lands with.
theorem update_cases (h : update ports s mark op = .ok (b, s')) :
    (b = false ∧ s'.Same s) ∨
    (b = true ∧ s' = s ∧ ∃ task, s.doc.task op.task = some task ∧ gated ports s op task) ∨
    (b = true ∧ ∃ task fields, Lands ports s op task fields ∧
      s' = applyUpdate s mark op (changed ports s task.fields fields op)) := by
  unfold update at h
  split at h
  case h_1        => cases h; exact .inl ⟨rfl, .refl⟩
  case h_2 task ht =>
    split_ifs at h with hk hg
    · cases h; exact .inr (.inl ⟨rfl, rfl, task, ht, hg⟩)
    · split at h
      case h_1    => cases h; exact .inl ⟨rfl, State.same_refuse⟩
      case h_2 hr =>
        unfold write at h
        split at h
        case h_1           => cases h
        case h_2 fields hn =>
          extract_lets fields after at h
          split_ifs at h
          split at h
          case h_1    => cases h; exact .inl ⟨rfl, State.same_refuse⟩
          case h_2 hd =>
            have agrees : Agree fields op.fields := agree_updateFields.trans (agree_normalized hn)
            cases h
            exact .inr (.inr ⟨rfl, task, fields, ⟨ht, by simpa using hg, hr, agrees, hd⟩, rfl⟩)
    · cases h; exact .inl ⟨rfl, .refl⟩

end Update

end Tasks
