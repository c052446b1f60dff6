import Agentihooks.Checkpoints.Retention
import Mathlib.Data.List.Dedup
import Mathlib.Data.List.Nodup
import Mathlib.Logic.Relation

-- What the collection removes, and how each object of its plan ends.

namespace Retention

variable {policies : List Policy} {w : World} {s : State} {d : String → Option Reason} {c : Checkpoint}
variable {id x : String} {reason : Reason}

section Decisions

-- A decision that keeps an object.
def Keeps (d : String → Option Reason) (id : String) : Prop :=
  ∃ reason, d id = some reason ∧ reason ≠ .eligible

theorem refer_of_ne (h : d id ≠ some .eligible) : refer d c id = d id := by
  unfold refer
  split
  case isTrue  => rfl
  case isFalse => simp [h]

theorem refer_eligible (h : refer d c id = some .eligible) : d id = some .eligible := by
  by_contra hn
  exact hn (refer_of_ne hn ▸ h)

theorem Keeps.refer (h : Keeps d id) : Keeps (refer d c) id := by
  obtain ⟨reason, he, hr⟩ := h
  refine ⟨reason, ?_, hr⟩
  rw [refer_of_ne (by simp [he, hr]), he]

theorem refer_none (h : d id ≠ none) : refer d c id ≠ none := by
  unfold Retention.refer
  split
  case isTrue => exact h
  case isFalse =>
    show (if _ then _ else _) ≠ none
    split
    case isTrue  => simp
    case isFalse => exact h

-- A manifest that is kept at its turn keeps the stored objects it names.
theorem Keeps.named (h : Keeps d c.checkpointId) (hx : x ∈ c.objects) (hs : d x ≠ none) : Keeps (Retention.refer d c) x := by
  obtain ⟨reason, he, hr⟩ := h
  cases hd : d x with
  | none       => exact absurd hd hs
  | some other =>
    by_cases ho : other = .eligible
    case pos => exact ⟨.referenced, by simp [Retention.refer, he, hr, hx, hd, ho], by simp⟩
    case neg => exact Keeps.refer ⟨other, hd, ho⟩

theorem keeps_fold {cs : List Checkpoint} (h : Keeps d id) : Keeps (cs.foldl Retention.refer d) id := by
  induction cs generalizing d
  case nil          => exact h
  case cons c cs ih => exact ih h.refer

theorem fold_eligible {cs : List Checkpoint} (h : cs.foldl Retention.refer d id = some .eligible) : d id = some .eligible := by
  induction cs generalizing d
  case nil          => exact h
  case cons c cs ih => exact refer_eligible (ih h)

-- Stored manifests of which each names the next.
def Chain (d : String → Option Reason) : List Checkpoint → Prop :=
  List.IsChain fun a b => b.checkpointId ∈ a.objects ∧ d b.checkpointId ≠ none

theorem Chain.refer {chain : List Checkpoint} (h : Chain d chain) : Chain (Retention.refer d c) chain :=
  h.imp fun _ _ hab => ⟨hab.1, refer_none hab.2⟩

-- The pass keeps what is reached along manifests in its own order.
theorem keeps_chain {first : Checkpoint} {rest cs : List Checkpoint} (hs : (first :: rest).Sublist cs)
    (hk : Keeps d first.checkpointId) (hc : Chain d (first :: rest)) (hx : x ∈ ((first :: rest).getLast (by simp)).objects)
    (hn : d x ≠ none) : Keeps (cs.foldl Retention.refer d) x := by
  induction cs generalizing d first rest
  case nil          => cases hs
  case cons c cs ih =>
    rw [List.foldl_cons]
    cases hs with
    | cons _ hs => exact ih hs hk.refer hc.refer hx (refer_none hn)
    | cons_cons _ hs =>
      cases rest with
      | nil              => exact keeps_fold (hk.named hx hn)
      | cons second rest =>
        obtain ⟨⟨hm, hd⟩, hc⟩ := List.isChain_cons_cons.mp hc
        refine ih hs (hk.named hm hd) (Chain.refer hc) ?_ (refer_none hn)
        simpa using hx

end Decisions

section Pins

variable {restoring ids : List String} {pinned : String → Option Reason} {cs : List Checkpoint}

theorem pin_none (h : pin restoring ids pinned c x = none) :
    pinned x = none ∧ ((x = c.checkpointId ∨ x ∈ c.objects) → c.checkpointId ∉ restoring ∧ c.checkpointId ∉ ids) := by
  unfold pin at h
  by_cases hr : c.checkpointId ∈ restoring
  case pos =>
    simp only [hr, if_true] at h
    split at h
    case isTrue => cases h
    case isFalse hn => exact ⟨h, fun hx => by simp [hx, h] at hn⟩
  case neg =>
    by_cases hl : c.checkpointId ∈ ids
    case pos =>
      simp only [hr, hl, if_true, if_false] at h
      split at h
      case isTrue => cases h
      case isFalse hn => exact ⟨h, fun hx => by simp [hx, h] at hn⟩
    case neg =>
      simp only [hr, hl, if_false] at h
      exact ⟨h, fun _ => ⟨hr, hl⟩⟩

theorem pin_fold_none (h : cs.foldl (pin restoring ids) pinned x = none) :
    pinned x = none ∧
      ∀ c ∈ cs, (x = c.checkpointId ∨ x ∈ c.objects) → c.checkpointId ∉ restoring ∧ c.checkpointId ∉ ids := by
  induction cs generalizing pinned
  case nil => exact ⟨h, by simp⟩
  case cons c cs ih =>
    obtain ⟨hp, hc⟩ := ih h
    obtain ⟨hp, hf⟩ := pin_none hp
    refine ⟨hp, fun c' hm => ?_⟩
    cases List.mem_cons.mp hm with
    | inl he => exact he ▸ hf
    | inr hm => exact hc c' hm

-- A complete checkpoint of an active task.
def Counts (active : List String) (c : Checkpoint) : Prop :=
  c.complete ∧ c.taskId ∈ active

theorem best_other {active : List String} {found : String → Option Checkpoint} {task : String} (h : task ≠ c.taskId) :
    best active found c task = found task := by
  unfold best
  split
  case isTrue =>
    cases found c.taskId with
    | none      => simp [h]
    | some held => by_cases hl : held.sequence < c.sequence <;> simp [hl, h]
  case isFalse => rfl

-- The best of a task so far stays one that no later one of the task is above.
theorem best_fold {active : List String} {found : String → Option Checkpoint} {c : Checkpoint} (hc : Counts active c)
    (hh : ∀ c' ∈ cs, Counts active c' → c'.taskId = c.taskId → c' ≠ c → c'.sequence < c.sequence)
    (h : found c.taskId = some c ∨ c ∈ cs ∧ ∀ held, found c.taskId = some held → held.sequence < c.sequence ∨ held = c) :
    cs.foldl (best active) found c.taskId = some c := by
  induction cs generalizing found
  case nil => exact h.resolve_right (by simp)
  case cons first cs ih =>
    refine ih (fun c' hm => hh c' (List.mem_cons_of_mem _ hm)) ?_
    by_cases ht : first.taskId = c.taskId
    case neg =>
      rw [best_other (fun h => ht h.symm)]
      refine h.imp_right fun hm => ⟨?_, hm.2⟩
      cases List.mem_cons.mp hm.1 with
      | inl he => exact absurd (he ▸ rfl) ht
      | inr hm => exact hm
    case pos =>
      by_cases hf : Counts active first
      case neg =>
        have he : best active found first = found := by
          unfold best
          exact if_neg hf
        rw [he]
        refine h.imp_right fun hm => ⟨?_, hm.2⟩
        cases List.mem_cons.mp hm.1 with
        | inl he => exact absurd (he ▸ hc) hf
        | inr hm => exact hm
      case pos =>
        have hb : best active found first c.taskId = (found c.taskId).elim (some first) fun held =>
            if held.sequence < first.sequence then some first else found c.taskId := by
          unfold best
          rw [if_pos (show first.complete ∧ first.taskId ∈ active from hf), ht]
          cases hd : found c.taskId with
          | none      => simp
          | some held => by_cases hl : held.sequence < first.sequence <;> simp [hl, hd]
        by_cases he : first = c
        case pos =>
          left
          rw [hb, he]
          cases hd : found c.taskId with
          | none      => rfl
          | some held =>
            have hl : held.sequence < c.sequence ∨ held = c := by
              cases h with
              | inl h => exact .inr (Option.some.inj (hd.symm.trans h))
              | inr h => exact h.2 held hd
            cases hl with
            | inl hl => simp [hl]
            | inr hl => simp [hl]
        case neg =>
          have hl := hh first List.mem_cons_self hf ht he
          rw [hb]
          cases h with
          | inl h =>
            left
            simp [h, not_lt.mpr hl.le]
          | inr h =>
            right
            refine ⟨(List.mem_cons.mp h.1).resolve_left fun hc => he hc.symm, fun held hd => ?_⟩
            cases hp : found c.taskId with
            | none =>
              rw [hp] at hd
              cases hd
              exact .inl hl
            | some old =>
              simp only [hp, Option.elim_some] at hd
              split at hd
              case isTrue =>
                cases hd
                exact .inl hl
              case isFalse =>
                cases hd
                exact h.2 held hp

-- The one highest complete checkpoint of an active task is among the latest.
theorem mem_latest {active : List String} (hm : c ∈ cs) (hc : Counts active c)
    (hh : ∀ c' ∈ cs, Counts active c' → c'.taskId = c.taskId → c' ≠ c → c'.sequence < c.sequence) :
    c.checkpointId ∈ latest cs active := by
  refine List.mem_filterMap.mpr ⟨c, hm, ?_⟩
  rw [best_fold hc hh (.inr ⟨hm, fun held hd => by cases hd⟩)]
  rfl

end Pins

section Removal

variable (policies)

def Stored (w : World) (id : String) : Prop :=
  ∃ item ∈ w.objects, item.objectId = id

-- A stored manifest of the first id names the second one.
def Names (w : World) (a b : String) : Prop :=
  Stored w a ∧ ∃ c ∈ w.checkpoints, c.checkpointId = a ∧ b ∈ c.objects

-- An id is reached along manifests in the order of the list, from one that is kept by its own rights.
def Reached (w : World) (x : String) : Prop :=
  ∃ first rest, (first :: rest).Sublist w.checkpoints ∧ Keeps (own policies w) first.checkpointId ∧
    Chain (own policies w) (first :: rest) ∧ x ∈ ((first :: rest).getLast (by simp)).objects

-- Where an expired object without pin and hold is named by another manifest that is expired and has no pin and hold
-- itself, it is reached in list order from one that is kept.
def Clear (w : World) (x : String) : Prop :=
  own policies w x = some .eligible →
    (∃ c ∈ w.checkpoints, c.checkpointId ≠ x ∧ own policies w c.checkpointId = some .eligible ∧ x ∈ c.objects) →
    Reached policies w x

-- What a removal is to rest on.
structure Rightful (w : World) (x : String) : Prop where
  expired  : ∃ item ∈ w.objects, item.objectId = x ∧ item.dataClass ∈ classes ∧
    ∃ policy, policyOf policies item.corpus = some policy ∧
      policy.expired item.dataClass item.createdAt w.now item.retention
  unpinned : ∀ c ∈ w.checkpoints, (x = c.checkpointId ∨ x ∈ c.objects) → c.checkpointId ∉ w.restoring ∧
    ¬ (Counts w.active c ∧ ∀ c' ∈ w.checkpoints, Counts w.active c' → c'.taskId = c.taskId → c' ≠ c →
      c'.sequence < c.sequence)
  unheld   : x ∉ w.evidence
  unnamed  : ∀ manifest, Keeps (decisions policies w) manifest → ¬ Relation.TransGen (Names w) manifest x
  last     : ∀ manifest, Names w manifest x → manifest = x

variable {policies}

theorem own_stored : own policies w x ≠ none ↔ Stored w x := by
  unfold own Stored
  rw [Ne, Option.map_eq_none_iff, List.find?_eq_none]
  simp

theorem own_item (h : own policies w x = some .eligible) :
    ∃ item ∈ w.objects, item.objectId = x ∧ ownOf policies w item = .eligible := by
  obtain ⟨item, hf, ho⟩ := Option.map_eq_some_iff.mp h
  exact ⟨item, List.mem_reverse.mp (List.mem_of_find?_eq_some hf), by simpa using List.find?_some hf, ho⟩

theorem ownOf_eligible {item : StoredObject} (h : ownOf policies w item = .eligible)
    (hp : pinned w item.objectId ≠ some .eligible) :
    pinned w item.objectId = none ∧ item.objectId ∉ w.evidence ∧ item.dataClass ∈ classes ∧
      ∃ policy, policyOf policies item.corpus = some policy ∧
        policy.expired item.dataClass item.createdAt w.now item.retention := by
  unfold ownOf at h
  split at h
  case h_1 hr => exact absurd (h ▸ hr) hp
  case h_2 hn =>
  split at h
  case isTrue => cases h
  case isFalse he =>
  split at h
  case isTrue => cases h
  case isFalse hc =>
  split at h
  case h_1 => cases h
  case h_2 policy ho =>
  split at h
  case isTrue hx  => exact ⟨hn, he, not_not.mp hc, policy, ho, hx⟩
  case isFalse => cases h

theorem pin_reason {restoring ids : List String} {pinned : String → Option Reason} (h : pinned x ≠ some .eligible) :
    pin restoring ids pinned c x ≠ some .eligible := by
  by_cases hr : c.checkpointId ∈ restoring
  case pos =>
    simp only [pin, hr, if_true]
    split
    case isTrue  => simp
    case isFalse => exact h
  case neg =>
    by_cases hl : c.checkpointId ∈ ids
    case pos =>
      simp only [pin, hr, hl, if_true, if_false]
      split
      case isTrue  => simp
      case isFalse => exact h
    case neg => simpa only [pin, hr, hl, if_false] using h

theorem pinned_reason : pinned w x ≠ some .eligible :=
  List.foldlRecOn (motive := fun (p : String → Option Reason) => p x ≠ some .eligible) w.checkpoints _ (by simp)
    fun _ h _ _ => pin_reason h

-- Whoever leads to an id that nothing but itself names is the id.
theorem eq_of_transGen {manifest : String} (hl : ∀ manifest, Names w manifest x → manifest = x)
    (h : Relation.TransGen (Names w) manifest x) : manifest = x := by
  induction h using Relation.TransGen.head_induction_on with
  | single hn    => exact hl _ hn
  | head hn _ ih => exact hl _ (ih ▸ hn)

theorem keeps_of_reached (h : Reached policies w x) (hs : Stored w x) : Keeps (decisions policies w) x := by
  obtain ⟨first, rest, hs', hk, hc, hx⟩ := h
  exact keeps_chain hs' hk hc hx (own_stored.mpr hs)

theorem rightful (h : decisions policies w x = some .eligible) (hc : Clear policies w x) : Rightful policies w x := by
  have ho : own policies w x = some .eligible := fold_eligible h
  have hs : Stored w x := own_stored.mp (ne_of_eq_of_ne ho (Option.some_ne_none _))
  have hl : ∀ manifest, Names w manifest x → manifest = x := by
    rintro manifest ⟨hm, c, hcs, rfl, hx⟩
    by_contra hne
    have hr : Reached policies w x := by
      cases hd : own policies w c.checkpointId with
      | none        => exact absurd hd (own_stored.mpr hm)
      | some reason =>
        by_cases hr : reason = .eligible
        case pos => exact hc ho ⟨c, hcs, hne, hr ▸ hd, hx⟩
        case neg => exact ⟨c, [], List.singleton_sublist.mpr hcs, ⟨reason, hd, hr⟩, .singleton _, hx⟩
    obtain ⟨reason, he, hr⟩ := keeps_of_reached hr hs
    exact hr (Option.some.inj (he.symm.trans h))
  obtain ⟨item, hi, rfl, hw⟩ := own_item ho
  obtain ⟨hp, he, hd, hx⟩ := ownOf_eligible hw pinned_reason
  refine ⟨⟨item, hi, rfl, hd, hx⟩, fun c hm hn => ?_, he, fun manifest hk ht => ?_, hl⟩
  · obtain ⟨hr, hn⟩ := (pin_fold_none hp).2 c hm hn
    exact ⟨hr, fun hh => hn (mem_latest hm hh.1 hh.2)⟩
  · obtain ⟨reason, he, hr⟩ := hk
    exact hr (Option.some.inj ((eq_of_transGen hl ht ▸ he).symm.trans h))

end Removal

section Runs

-- The objects that the lines of a journal settle.
def ids (lines : List Entry) : List String :=
  lines.flatMap Entry.settles

-- A journal of a run after its plan: each line settles another object of the plan.
structure Journaled (plan : List String) (lines : List Entry) : Prop where
  nodup  : plan.Nodup
  each   : ∀ entry ∈ lines, entry.settles ≠ []
  once   : (ids lines).Nodup
  subset : ids lines ⊆ plan

def Started (entries : List Entry) : Prop :=
  entries = [] ∨ ∃ plan lines, entries = .planned plan :: lines ∧ Journaled plan lines

-- The collector has come to the objects left of its plan, of which those settled before it started have a line.
structure At (journal : String → List Entry) (run : String) (settled done left : List String) (lines : List Entry) : Prop where
  found     : journal run = .planned (done ++ left) :: lines
  journaled : Journaled (done ++ left) lines
  past      : done ⊆ ids lines
  next      : ∀ id ∈ left, id ∈ ids lines ↔ id ∈ settled

def Placed (journal : String → List Entry) (run : String) (settled left : List String) : Prop :=
  ∃ done lines, At journal run settled done left lines

variable (policies)

-- What holds where the collector is.
def Sound (journal : String → List Entry) (decision : World) : Phase → Prop
  | .idle                              => True
  | .planning _ found _                => found.Nodup
  | .loop run settled left             => Placed journal run settled left
  | .decided run settled id reason left =>
    Placed journal run settled (id :: left) ∧ id ∉ settled ∧ reason = decisions policies decision id ∧
      Clear policies decision id
  | .removed run settled id left       => Placed journal run settled (id :: left) ∧ id ∉ settled

structure Inv (s : State) : Prop where
  journal  : ∀ run, Started (s.journal run)
  phase    : Sound policies s.journal s.decision s.phase
  removals : ∀ removal ∈ s.removals, Rightful policies removal.1 removal.2

-- The decisions of a run are taken where they are clear.
def Careful (s : State) (e : Event) : Prop :=
  e = .tick → ∀ run settled id left, s.phase = .loop run settled (id :: left) → id ∉ settled → Clear policies s.world id

variable {policies}
variable {s : State} {journal : String → List Entry} {run : String} {settled done left : List String} {lines : List Entry} {entry : Entry}

theorem ids_append : ids (lines ++ [entry]) = ids lines ++ entry.settles := by
  simp [ids]

theorem Placed.skip (h : Placed journal run settled (id :: left)) (hi : id ∈ settled) : Placed journal run settled left := by
  obtain ⟨done, lines, h⟩ := h
  have he : done ++ id :: left = (done ++ [id]) ++ left := by simp
  refine ⟨done ++ [id], lines, he ▸ h.found, he ▸ h.journaled, ?_, fun other ho => h.next other (List.mem_cons_of_mem _ ho)⟩
  rw [List.append_subset, List.cons_subset]
  exact ⟨h.past, (h.next id List.mem_cons_self).mpr hi, List.nil_subset _⟩

-- A line for the next object of the plan.
theorem Placed.append (h : Placed s.journal run settled (id :: left)) (hi : id ∉ settled) (he : entry.settles = [id]) :
    Placed (Retention.append s run entry).journal run settled left := by
  obtain ⟨done, lines, h⟩ := h
  have hp : done ++ id :: left = (done ++ [id]) ++ left := by simp
  have hn : id ∉ ids lines := fun hm => hi ((h.next id List.mem_cons_self).mp hm)
  have hm : id ∈ (done ++ [id]) ++ left := by simp
  have hj := hp ▸ h.journaled
  refine ⟨done ++ [id], lines ++ [entry], ?_, ⟨hj.nodup, ?_, ?_, ?_⟩, ?_, fun other ho => ?_⟩
  · simp [Retention.append, h.found]
  · intro other ho
    cases List.mem_append.mp ho with
    | inl ho => exact hj.each other ho
    | inr ho => simp [List.mem_singleton.mp ho, he]
  · rw [ids_append, he, List.nodup_append]
    refine ⟨hj.once, by simp, fun a ha b hb hab => hn ?_⟩
    rw [← List.mem_singleton.mp hb, ← hab]
    exact ha
  · rw [ids_append, he, List.append_subset, List.cons_subset]
    exact ⟨hj.subset, hm, List.nil_subset _⟩
  · rw [ids_append, he]
    exact List.append_subset.mpr ⟨List.subset_append_of_subset_left _ h.past, List.subset_append_right _ _⟩
  · have hne : other ≠ id := by
      rintro rfl
      have := (List.nodup_append.mp h.journaled.nodup).2.1
      exact (List.nodup_cons.mp this).1 ho
    rw [ids_append, he, List.mem_append, List.mem_singleton, or_iff_left hne]
    exact h.next other (List.mem_cons_of_mem _ ho)

theorem Placed.started (h : Placed journal run settled left) : Started (journal run) := by
  obtain ⟨done, lines, h⟩ := h
  exact .inr ⟨_, _, h.found, h.journaled⟩

theorem append_started (h : ∀ run, Started (s.journal run)) (hp : Started ((append s run entry).journal run))
    (other : String) : Started ((append s run entry).journal other) := by
  by_cases ho : other = run
  case pos => exact ho ▸ hp
  case neg => simpa [append, ho] using h other

theorem placed_of_started (h : Started (journal run)) (hn : journal run ≠ []) :
    Placed journal run (Retention.settled (journal run)) (plan (journal run)) := by
  obtain h | ⟨found, lines, he, hj⟩ := h
  case inl => exact absurd h hn
  case inr => exact ⟨[], lines, by rw [he]; rfl, by rw [he]; exact hj, List.nil_subset _, fun _ _ => by rw [he]; rfl⟩

theorem ordered_nodup {found : List String} {cs : List Checkpoint} (h : found.Nodup) : (ordered found cs).Nodup :=
  (List.perm_insertionSort _ _).nodup_iff.mpr h

theorem eligible_nodup : (eligible policies w).Nodup :=
  (List.perm_insertionSort _ _).nodup_iff.mpr ((List.nodup_dedup _).filter _)

theorem Inv.tick (h : Inv policies s) (hc : Careful policies s .tick) : Inv policies (tick policies s) := by
  have hp := h.phase
  unfold Retention.tick
  split
  case h_1 => exact h
  case h_2 run found destructive hs =>
    rw [hs] at hp
    have hj : ∀ run', Started ((if s.journal run = [] then
        append s run (.planned (ordered found s.world.checkpoints)) else s).journal run') := by
      split
      case isTrue he =>
        refine append_started h.journal (.inr ⟨ordered found s.world.checkpoints, [], by simp [append, he], ?_⟩)
        exact ⟨ordered_nodup hp, by simp, by simp [ids], by simp [ids]⟩
      case isFalse => exact h.journal
    have hn : (if s.journal run = [] then
        append s run (.planned (ordered found s.world.checkpoints)) else s).journal run ≠ [] := by
      split
      case isTrue     => simp [append]
      case isFalse he => exact he
    refine ⟨hj, ?_, ?_⟩
    · cases destructive with
      | false => trivial
      | true  => exact placed_of_started (hj run) hn
    · have hr : (if s.journal run = [] then
          append s run (.planned (ordered found s.world.checkpoints)) else s).removals = s.removals := by
        split <;> rfl
      simpa only [hr] using h.removals
  case h_3 => exact ⟨h.journal, trivial, h.removals⟩
  case h_4 run settled id left hs =>
    rw [hs] at hp
    split
    case isTrue hi  => exact ⟨h.journal, Placed.skip hp hi, h.removals⟩
    case isFalse hi => exact ⟨h.journal, ⟨hp, hi, rfl, hc rfl run settled id left hs hi⟩, h.removals⟩
  case h_5 run settled id left hs =>
    rw [hs] at hp
    have ha := Placed.append hp.1 hp.2.1 (rfl : (Entry.absent id).settles = [id])
    exact ⟨append_started h.journal ha.started, ha, h.removals⟩
  case h_6 run settled id left hs =>
    rw [hs] at hp
    refine ⟨h.journal, ⟨hp.1, hp.2.1⟩, fun removal hm => ?_⟩
    cases List.mem_append.mp hm with
    | inl hm => exact h.removals removal hm
    | inr hm =>
      rw [List.mem_singleton.mp hm]
      exact rightful hp.2.2.1.symm hp.2.2.2
  case h_7 run settled id reason left hr hs =>
    rw [hs] at hp
    have ha := Placed.append hp.1 hp.2.1 (rfl : (Entry.skipped id reason).settles = [id])
    exact ⟨append_started h.journal ha.started, ha, h.removals⟩
  case h_8 run settled id left hs =>
    rw [hs] at hp
    have ha := Placed.append hp.1 hp.2 (rfl : (Entry.deleted id).settles = [id])
    exact ⟨append_started h.journal ha.started, ha, h.removals⟩

theorem Inv.step {e : Event} (h : Inv policies s) (hc : Careful policies s e) : Inv policies (step policies s e) := by
  cases e with
  | change world          => exact ⟨h.journal, h.phase, h.removals⟩
  | tick                  => exact h.tick hc
  | crash                 => exact ⟨h.journal, trivial, h.removals⟩
  | start run destructive =>
    unfold Retention.step
    dsimp only
    split
    case isTrue  => exact ⟨h.journal, eligible_nodup, h.removals⟩
    case isFalse => exact h

variable (policies)

-- What every removal rested on, and how each object of a plan ended when its run completed.
structure Holds (s : State) : Prop where
  removals : ∀ removal ∈ s.removals, Rightful policies removal.1 removal.2
  ended    : ∀ run settled, s.phase = .loop run settled [] →
    ∃ plan lines, s.journal run = .planned plan :: lines ∧
      ∀ id ∈ plan, ∃ front entry rest, lines = front ++ entry :: rest ∧
        (entry = .deleted id ∨ (∃ reason, entry = .skipped id reason) ∨ entry = .absent id) ∧
        ∀ other ∈ front ++ rest, id ∉ other.settles

variable {policies}

theorem settles_eq (h : id ∈ entry.settles) :
    entry = .deleted id ∨ (∃ reason, entry = .skipped id reason) ∨ entry = .absent id := by
  cases entry with
  | planned        => cases h
  | deleted        => exact .inl (List.mem_singleton.mp h ▸ rfl)
  | skipped _ reason => exact .inr (.inl ⟨reason, List.mem_singleton.mp h ▸ rfl⟩)
  | absent         => exact .inr (.inr (List.mem_singleton.mp h ▸ rfl))

theorem Inv.holds (h : Inv policies s) : Holds policies s where
  removals := h.removals
  ended run settled hs := by
    have hp := h.phase
    rw [hs] at hp
    obtain ⟨done, lines, hp⟩ := hp
    refine ⟨done ++ [], lines, hp.found, fun id hi => ?_⟩
    rw [List.append_nil] at hi
    obtain ⟨entry, he, hm⟩ := List.mem_flatMap.mp (hp.past hi)
    obtain ⟨front, rest, rfl⟩ := List.append_of_mem he
    refine ⟨front, entry, rest, rfl, settles_eq hm, fun other ho hn => ?_⟩
    have ho' := hp.journaled.once
    rw [ids, List.flatMap_append, List.flatMap_cons, List.nodup_append, List.nodup_append] at ho'
    cases List.mem_append.mp ho with
    | inl ho => exact ho'.2.2 id (List.mem_flatMap.mpr ⟨other, ho, hn⟩) id (List.mem_append_left _ hm) rfl
    | inr ho => exact ho'.2.1.2.2 id hm id (List.mem_flatMap.mpr ⟨other, ho, hn⟩) rfl

theorem collection_holds {journal : String → List Entry} {es : List Event} (hj : ∀ run, Started (journal run))
    (h : Run.Along (step policies) (Careful policies) (init w journal) es) :
    Holds policies (Run.run (step policies) (init w journal) es) := by
  have hi : Inv policies (init w journal) := ⟨hj, trivial, by simp [init]⟩
  exact (h.invariant (fun _ _ => Inv.step) hi).holds

end Runs

-- A policy under which manifests expire after a day.
def daily : List Policy :=
  [⟨"swarm", "1", [("native_resume", some 86400)]⟩]

def resume (id : String) (createdAt : ℤ) : StoredObject :=
  ⟨id, "swarm", "native_resume", createdAt, untilExpiry⟩

-- The new manifest `b` and the old ones `a` and `x`, with the given checkpoints.
def shelf (checkpoints : List Checkpoint) : World where
  objects := [resume "a" 0, resume "b" 90000, resume "x" 0]
  checkpoints := checkpoints
  restoring := []
  evidence := []
  active := []
  now := 100000

def inner : Checkpoint := ⟨"a", "t", 1, true, ["x"]⟩
def outer : Checkpoint := ⟨"b", "t", 2, true, ["a"]⟩

def collects (ticks : ℕ) : List Event :=
  .start "run" true :: List.replicate ticks .tick

theorem collection_holds_inner :
    Holds daily (Run.run (step daily) (init (shelf [inner]) fun _ => []) (collects 5)) := by
  refine collection_holds (fun _ => .inl rfl) ⟨(fun he => by cases he), ?_, ?_, ?_, ?_, ?_, trivial⟩
  case refine_2 =>
    rintro - run settled id left hp -
    cases hp
    rintro - ⟨c, hc, -, -, hx⟩
    cases List.mem_singleton.mp hc
    exact absurd hx (by decide)
  case refine_5 =>
    rintro - run settled id left hp -
    cases hp
    rintro - ⟨c, hc, -, he, -⟩
    cases List.mem_singleton.mp hc
    exact absurd he (by decide)
  all_goals
    rintro - run settled id left hp -
    cases hp

-- The old manifest is passed before the new one keeps it, so what it names is removed.
theorem collection_unnamed_fails :
    ¬ ∀ w es, Holds daily (Run.run (step daily) (init w fun _ => []) es) := by
  intro h
  have hr := (h (shelf [inner, outer]) (collects 3)).removals (shelf [inner, outer], "x") List.mem_cons_self
  exact hr.unnamed "a" ⟨.referenced, by decide, by simp⟩
    (.single ⟨⟨resume "a" 0, by simp [shelf], rfl⟩, inner, by simp [shelf], rfl, by simp [inner]⟩)

end Retention
