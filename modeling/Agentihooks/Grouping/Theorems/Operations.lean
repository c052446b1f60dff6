import Agentihooks.Grouping.Tasks
import Agentihooks.Library.Lists

namespace Grouping

open Relation

abbrev Depends (tasks : Tasks) : TaskId → TaskId → Prop :=
  TransGen (dependencies tasks).Edge

structure Grouped (tasks : Tasks) : Prop where
  listed : ∀ t g, mergedInto tasks t = some g ↔ t ∈ members tasks g
  nodup  : ∀ g, (members tasks g).Nodup
  single : ∀ g g' m, m ∈ members tasks g → m ∈ members tasks g' → g = g'
  lead   : ∀ g, members tasks g ≠ [] → mergedInto tasks g = none
  member : ∀ g, ∀ m ∈ members tasks g, members tasks m = []
  apart  : ∀ g, ∀ m ∈ members tasks g, ∀ y ∈ g :: members tasks g, y ≠ m → ¬ Depends tasks m y

theorem Grouped.of {tasks : Tasks}
    (hl : ∀ t g, mergedInto tasks t = some g ↔ t ∈ members tasks g)
    (hn : ∀ g, (members tasks g).Nodup)
    (hf : ∀ g, members tasks g ≠ [] → mergedInto tasks g = none)
    (ha : ∀ g, ∀ m ∈ members tasks g, ∀ y ∈ g :: members tasks g, y ≠ m → ¬ Depends tasks m y) :
    Grouped tasks where
  listed := hl
  nodup  := hn
  single := by
    intro g g' m hg hg'
    exact Option.some.inj <| (hl m g).mpr hg ▸ (hl m g').mpr hg'
  lead   := hf
  member := by
    intro g m hm
    by_contra h
    exact nomatch (hf m h).symm.trans ((hl m g).mpr hm)
  apart  := ha

theorem dependencies_edge {tasks : Tasks} {a b : TaskId} :
    (dependencies tasks).Edge a b ↔ b ∈ next tasks a :=
  Iff.rfl

theorem depends_congr {tasks tasks' : Tasks} (h : next tasks' = next tasks) : Depends tasks' = Depends tasks := by
  have he : (dependencies tasks').Edge = (dependencies tasks).Edge := by
    funext a b
    simp only [dependencies_edge, h]
  rw [Depends, Depends, he]

section MapValues

variable {tasks : Tasks} {f : TaskId → Task → Task}

theorem next_mapValues (h : ∀ id t, (f id t).dependsOn = t.dependsOn) : next (tasks.mapValues f) = next tasks := by
  funext id
  cases hl : tasks.lookup id <;> simp [next, hl, h]

theorem members_mapValues {id : TaskId} {t : Task} (h : tasks.lookup id = some t) :
    members (tasks.mapValues f) id = (f id t).members := by
  simp [members, h]

theorem mergedInto_mapValues {id : TaskId} {t : Task} (h : tasks.lookup id = some t) :
    mergedInto (tasks.mapValues f) id = (f id t).mergedInto := by
  simp [mergedInto, h]

theorem members_mapValues_eq {id : TaskId} (h : ∀ t, (f id t).groupMembers = t.groupMembers) :
    members (tasks.mapValues f) id = members tasks id := by
  cases hl : tasks.lookup id <;> simp [members, Task.members, hl, h]

theorem mergedInto_mapValues_eq {id : TaskId} (h : ∀ t, (f id t).mergedInto = t.mergedInto) :
    mergedInto (tasks.mapValues f) id = mergedInto tasks id := by
  cases hl : tasks.lookup id <;> simp [mergedInto, hl, h]

end MapValues

-- What the checks of a group let through.
structure Joinable (tasks : Tasks) (op : GroupOp) : Prop where
  known : ∀ id ∈ op.lead :: op.members, ∃ t, tasks.lookup id = some t
  free  : ∀ id ∈ op.lead :: op.members, mergedInto tasks id = none ∧ members tasks id = []
  apart : ∀ id ∈ op.lead :: op.members, ∀ y ∈ op.lead :: op.members, ¬ Depends tasks id y

theorem orNext_eq_none {first second : Check} :
    first.orNext second = .ok none ↔ first = .ok none ∧ second = .ok none := by
  unfold Check.orNext
  split
  case h_1 => simp
  case h_2 h => exact ⟨fun hf => absurd hf h, fun hf => absurd hf.left h⟩

theorem firstOf_eq_none {α : Type} {check : α → Check} {xs : List α} :
    Check.firstOf check xs = .ok none ↔ ∀ x ∈ xs, check x = .ok none := by
  induction xs
  case nil          => simp [Check.firstOf]
  case cons x xs hi => rw [Check.firstOf, orNext_eq_none, hi, List.forall_mem_cons]

theorem standing_free {id : TaskId} {t : Task} (h : standing (id, t) = .ok none) :
    t.mergedInto = none ∧ t.members = [] := by
  simp only [standing] at h
  split at h
  case h_1 => nomatch h
  case h_2 =>
    split_ifs at h with _ hg <;> cases h
    simpa using hg

theorem order_apart {tasks : Tasks} {ids : List TaskId} {id y : TaskId} {t : Task}
    (h : order tasks ids (id, t) = .ok none) (ht : tasks.lookup id = some t) (hy : y ∈ ids) :
    ¬ Depends tasks id y := by
  intro hd
  simp only [order] at h
  split_ifs at h with hr <;> cases h
  have hn : (dependencies tasks).next id = t.dependsOn := by simp [dependencies, next, ht]
  have hu : y ∈ upstream tasks t := by
    rw [upstream, ← hn]
    exact TargetGraph.mem_closure_next.mpr hd
  have hm : y ∈ reached tasks ids t := List.mem_filter.mpr ⟨hu, by simpa using hy⟩
  exact hr (List.ne_nil_of_mem hm)

theorem refusal_eq_none {rows : Group} {tasks : Tasks} {ceiling : ℕ} (h : refusal rows tasks ceiling = .ok none) :
    ∀ row ∈ rows, standing row = .ok none ∧ order tasks (rows.map Prod.fst) row = .ok none := by
  simp only [refusal] at h
  split at h
  case isTrue => nomatch h
  case isFalse =>
    obtain ⟨hs, h⟩ := orNext_eq_none.mp h
    obtain ⟨ho, _⟩ := orNext_eq_none.mp h
    exact fun row hr => ⟨firstOf_eq_none.mp hs row hr, firstOf_eq_none.mp ho row hr⟩

theorem groupOf_mem {tasks : Tasks} {ids : List TaskId} {rows : Group} (h : groupOf tasks ids = some rows) :
    ∀ id ∈ ids, ∃ t, tasks.lookup id = some t ∧ (id, t) ∈ rows := by
  intro id hid
  obtain ⟨row, hr, hf⟩ := List.mem_of_mapM h id hid
  obtain ⟨t, ht, he⟩ := Option.map_eq_some_iff.mp hf
  exact ⟨t, ht, he ▸ hr⟩

theorem joinable {tasks : Tasks} {op : GroupOp} {rows : Group}
    (hg : groupOf tasks (op.lead :: op.members) = some rows) (hr : refusal rows tasks foldCeiling = .ok none) :
    Joinable tasks op where
  known := by
    intro id hid
    obtain ⟨t, ht, _⟩ := groupOf_mem hg id hid
    exact ⟨t, ht⟩
  free := by
    intro id hid
    obtain ⟨t, ht, hm⟩ := groupOf_mem hg id hid
    have hf := standing_free (refusal_eq_none hr _ hm).left
    simp [mergedInto, members, ht, hf]
  apart := by
    intro id hid y hy
    obtain ⟨t, ht, hm⟩ := groupOf_mem hg id hid
    obtain ⟨_, _, hm'⟩ := groupOf_mem hg y hy
    exact order_apart (refusal_eq_none hr _ hm).right ht (List.mem_map_of_mem hm')

section Merge

variable {tasks : Tasks} {op : GroupOp} {id : TaskId}

theorem next_merge : next (tasks.mapValues (Task.merge op)) = next tasks :=
  next_mapValues fun id t => by
    unfold Task.merge
    split_ifs <;> rfl

theorem members_merge_lead (hj : Joinable tasks op) :
    members (tasks.mapValues (Task.merge op)) op.lead = op.members := by
  obtain ⟨t, ht⟩ := hj.known op.lead List.mem_cons_self
  rw [members_mapValues ht]
  simp [Task.merge, Task.members]

theorem members_merge_of_ne (h : id ≠ op.lead) :
    members (tasks.mapValues (Task.merge op)) id = members tasks id :=
  members_mapValues_eq fun t => by
    simp only [Task.merge, h, ↓reduceIte]
    split_ifs <;> rfl

theorem mergedInto_merge_member (hj : Joinable tasks op) (h : id ∈ op.members) :
    mergedInto (tasks.mapValues (Task.merge op)) id = some op.lead := by
  obtain ⟨t, ht⟩ := hj.known id (List.mem_cons_of_mem _ h)
  have hn : id ≠ op.lead := fun he => op.apart (he ▸ h)
  rw [mergedInto_mapValues ht]
  simp [Task.merge, h, hn]

theorem mergedInto_merge_of_notMem (h : id ∉ op.members) :
    mergedInto (tasks.mapValues (Task.merge op)) id = mergedInto tasks id :=
  mergedInto_mapValues_eq fun t => by
    simp only [Task.merge, h, ↓reduceIte]
    split_ifs <;> rfl

end Merge

theorem Grouped.merge {tasks : Tasks} {op : GroupOp} (h : Grouped tasks) (hj : Joinable tasks op) :
    Grouped (tasks.mapValues (Task.merge op)) := by
  have free {id : TaskId} (hid : id ∈ op.members) := hj.free id (List.mem_cons_of_mem _ hid)
  have lead := hj.free op.lead List.mem_cons_self
  apply Grouped.of
  case hl =>
    intro t g
    by_cases hg : g = op.lead <;> by_cases ht : t ∈ op.members
    case pos => simp [hg, ht, members_merge_lead hj, mergedInto_merge_member hj]
    case neg => simp [hg, ht, members_merge_lead hj, mergedInto_merge_of_notMem, h.listed, lead]
    case pos => simp [members_merge_of_ne hg, mergedInto_merge_member hj ht, ← h.listed, free ht, Ne.symm hg]
    case neg => rw [members_merge_of_ne hg, mergedInto_merge_of_notMem ht, h.listed]
  case hn =>
    intro g
    by_cases hg : g = op.lead
    case pos => exact hg ▸ members_merge_lead hj ▸ op.nodup
    case neg =>
      rw [members_merge_of_ne hg]
      exact h.nodup g
  case hf =>
    intro g hm
    by_cases hg : g = op.lead
    case pos => rw [hg, mergedInto_merge_of_notMem op.apart, lead.left]
    case neg =>
      rw [members_merge_of_ne hg] at hm
      rw [mergedInto_merge_of_notMem fun hid => hm (free hid).right, h.lead g hm]
  case ha =>
    intro g m hm y hy hne
    rw [depends_congr next_merge]
    by_cases hg : g = op.lead
    case pos =>
      subst hg
      rw [members_merge_lead hj] at hm hy
      exact hj.apart m (List.mem_cons_of_mem _ hm) y hy
    case neg =>
      rw [members_merge_of_ne hg] at hm hy
      exact h.apart g m hm y hy hne

section Release

variable {tasks : Tasks} {g id : TaskId} {ids : List TaskId}

theorem next_release : next (tasks.mapValues (Task.release g ids)) = next tasks :=
  next_mapValues fun id t => by
    simp only [Task.release]
    split_ifs <;> rfl

theorem members_release_lead : members (tasks.mapValues (Task.release g ids)) g = [] := by
  cases hl : tasks.lookup g
  case none => simp [members, hl]
  case some =>
    rw [members_mapValues hl]
    simp only [Task.release, ↓reduceIte, Task.members]
    split_ifs <;> rfl

theorem members_release_of_ne (h : id ≠ g) : members (tasks.mapValues (Task.release g ids)) id = members tasks id :=
  members_mapValues_eq fun t => by
    simp only [Task.release, h, ↓reduceIte]
    split_ifs <;> rfl

theorem mergedInto_release_mem (h : id ∈ ids) : mergedInto (tasks.mapValues (Task.release g ids)) id = none := by
  cases hl : tasks.lookup id
  case none => simp [mergedInto, hl]
  case some => simp [mergedInto_mapValues hl, Task.release, h]

theorem mergedInto_release_of_notMem (h : id ∉ ids) :
    mergedInto (tasks.mapValues (Task.release g ids)) id = mergedInto tasks id :=
  mergedInto_mapValues_eq fun t => by
    simp only [Task.release, h, ↓reduceIte]
    split_ifs <;> rfl

end Release

theorem Grouped.released_eq {tasks : Tasks} (h : Grouped tasks) (g : TaskId) : released tasks g = members tasks g :=
  List.filter_eq_self.mpr fun m hm => by simpa using (h.listed m g).mpr hm

theorem Grouped.release {tasks : Tasks} (h : Grouped tasks) (g : TaskId) :
    Grouped (tasks.mapValues (Task.release g (members tasks g))) := by
  have keep {t g' : TaskId} (hg : g' ≠ g) (ht : t ∈ members tasks g') : t ∉ members tasks g :=
    fun ht' => hg (h.single g' g t ht ht')
  apply Grouped.of
  case hl =>
    intro t g'
    by_cases hg : g' = g <;> by_cases ht : t ∈ members tasks g
    case pos => simp [hg, members_release_lead, mergedInto_release_mem ht]
    case neg => simp [hg, members_release_lead, mergedInto_release_of_notMem ht, h.listed, ht]
    case pos =>
      rw [members_release_of_ne hg, mergedInto_release_mem ht]
      exact ⟨(nomatch ·), fun ht' => absurd ht (keep hg ht')⟩
    case neg => rw [members_release_of_ne hg, mergedInto_release_of_notMem ht, h.listed]
  case hn =>
    intro g'
    by_cases hg : g' = g
    case pos => simp [hg, members_release_lead]
    case neg =>
      rw [members_release_of_ne hg]
      exact h.nodup g'
  case hf =>
    intro g' hm
    by_cases hg : g' = g
    case pos => exact absurd members_release_lead (hg ▸ hm)
    case neg =>
      rw [members_release_of_ne hg] at hm
      by_cases ht : g' ∈ members tasks g
      case pos => exact mergedInto_release_mem ht
      case neg => rw [mergedInto_release_of_notMem ht, h.lead g' hm]
  case ha =>
    intro g' m hm y hy hne
    rw [depends_congr next_release]
    by_cases hg : g' = g
    case pos =>
      rw [hg, members_release_lead] at hm
      nomatch hm
    case neg =>
      rw [members_release_of_ne hg] at hm hy
      exact h.apart g' m hm y hy hne

end Grouping

namespace Grouping

open Relation

-- An update that reaches the task: no check holds it back and the task may take the fields.
def UpdateOp.Lands (op : UpdateOp) (tasks : Tasks) (task : Task) : Prop :=
  op.checks.relayed = none ∧ op.checks.skipped = false ∧ op.checks.plan = none ∧
  tasks.lookup op.task = some task ∧
  Known tasks op.task (op.fields.dependsOn.getD [] ++ op.fields.parkedOn.getD []) ∧
  op.checks.hold = false ∧ op.checks.refusal = none ∧ (task.write op.fields).LaneFits ∧ op.checks.proof = none

-- The new dependencies of the task lead no member that depends on it to its own group. The task's own old
-- dependencies are left out of the paths, as the update replaces them.
def UpdateOp.Apart (op : UpdateOp) (tasks : Tasks) : Prop :=
  ∀ task, op.Lands tasks task → ∀ deps, op.fields.dependsOn = some deps →
  ∀ g, ∀ m ∈ members tasks g, ∀ y ∈ g :: members tasks g, y ≠ m →
  ReflTransGen (Off (dependencies tasks).Edge op.task) m op.task →
  ∀ d ∈ deps, ¬ ReflTransGen (Off (dependencies tasks).Edge op.task) d y

def Op.Apart (tasks : Tasks) : Op → Prop
  | .group _ | .ungroup _ => True
  | .update op            => op.Apart tasks

section Update

variable {s : State} {op : UpdateOp} {task : Task}

@[simp]
theorem after_ok (done : Bool) (s' : State) : after s (.ok (done, s')) = s'.tasks :=
  rfl

@[simp]
theorem after_reject (reason : String) : after s (s.reject reason) = s.tasks :=
  rfl

theorem update_lands (h : op.Lands s.tasks task) :
    update s op = .ok (true, { s with tasks := s.tasks.insert op.task (task.write op.fields) }) := by
  obtain ⟨hr, hs, hp, ht, hk, hh, hf, hl, hd⟩ := h
  simp only [update, hr, hs, hp, gated, ht, hk, hh, hf, write, hl, hd, not_true, Bool.false_eq_true, ↓reduceIte]

theorem after_write :
    after s (write s op task) = s.tasks ∨ (task.write op.fields).LaneFits ∧ op.checks.proof = none := by
  by_cases hl : (task.write op.fields).LaneFits
  case neg => exact .inl (by simp [write, hl, after])
  case pos =>
    cases hp : op.checks.proof
    case none => exact .inr ⟨hl, rfl⟩
    case some => exact .inl (by simp [write, hl, hp])

theorem after_gated : after s (gated s op) = s.tasks ∨ ∃ task,
    s.tasks.lookup op.task = some task ∧
    Known s.tasks op.task (op.fields.dependsOn.getD [] ++ op.fields.parkedOn.getD []) ∧
    op.checks.hold = false ∧ op.checks.refusal = none ∧ (task.write op.fields).LaneFits ∧ op.checks.proof = none := by
  unfold gated
  split
  case h_1         => exact .inl rfl
  case h_2 task ht =>
    split_ifs with hk hh
    · exact .inl rfl
    · split
      case h_1    => exact .inl rfl
      case h_2 hr => exact after_write.imp_right fun hw => ⟨task, ht, hk, by simpa using hh, hr, hw⟩
    · exact .inl rfl

theorem after_update : after s (update s op) = s.tasks ∨ ∃ task, op.Lands s.tasks task := by
  unfold update
  split
  case h_1 verdict _ => cases verdict <;> exact .inl rfl
  case h_2 hr        =>
    split_ifs with hs
    · exact .inl rfl
    · split
      case h_1    => exact .inl rfl
      case h_2 hp =>
        exact after_gated.imp_right fun ⟨task, hg⟩ => ⟨task, hr, by simpa using hs, hp, hg⟩

end Update

section Write

variable {tasks : Tasks} {x : TaskId} {task : Task} {fields : Fields}

@[simp]
theorem write_members (t : Task) (fields : Fields) : (t.write fields).members = t.members :=
  rfl

@[simp]
theorem write_mergedInto (t : Task) (fields : Fields) : (t.write fields).mergedInto = t.mergedInto :=
  rfl

@[simp]
theorem write_dependsOn (t : Task) (fields : Fields) :
    (t.write fields).dependsOn = fields.dependsOn.getD t.dependsOn :=
  rfl

theorem members_write (h : tasks.lookup x = some task) (fields : Fields) :
    members (tasks.insert x (task.write fields)) = members tasks := by
  funext id
  by_cases hid : id = x
  case pos => subst hid; simp [members, h]
  case neg => simp [members, Finmap.lookup_insert_of_ne _ hid]

theorem mergedInto_write (h : tasks.lookup x = some task) (fields : Fields) :
    mergedInto (tasks.insert x (task.write fields)) = mergedInto tasks := by
  funext id
  by_cases hid : id = x
  case pos => subst hid; simp [mergedInto, h]
  case neg => simp [mergedInto, Finmap.lookup_insert_of_ne _ hid]

theorem next_write_of_none (h : tasks.lookup x = some task) (hf : fields.dependsOn = none) :
    next (tasks.insert x (task.write fields)) = next tasks := by
  funext id
  by_cases hid : id = x
  case pos => subst hid; simp [next, h, hf]
  case neg => simp [next, Finmap.lookup_insert_of_ne _ hid]

theorem edge_write {deps : List TaskId} (hf : fields.dependsOn = some deps) :
    (dependencies (tasks.insert x (task.write fields))).Edge = Rerouted (dependencies tasks).Edge x (· ∈ deps) := by
  funext a b
  by_cases ha : a = x
  case pos => subst ha; simp [dependencies_edge, next, Rerouted, Off, hf]
  case neg => simp [dependencies_edge, next, Rerouted, Off, ha, Finmap.lookup_insert_of_ne _ ha]

theorem Grouped.write_iff (h : Grouped tasks) (ht : tasks.lookup x = some task) :
    Grouped (tasks.insert x (task.write fields)) ↔
    ∀ g, ∀ m ∈ members tasks g, ∀ y ∈ g :: members tasks g, y ≠ m →
      ¬ Depends (tasks.insert x (task.write fields)) m y := by
  have hm := members_write ht fields
  have hi := mergedInto_write ht fields
  constructor
  case mp => exact fun h' => hm ▸ h'.apart
  case mpr =>
    intro ha
    refine Grouped.of ?_ ?_ ?_ ?_ <;> rw [hm]
    case refine_1 => exact hi ▸ h.listed
    case refine_2 => exact h.nodup
    case refine_3 => exact hi ▸ h.lead
    case refine_4 => exact ha

end Write

theorem Grouped.update_iff {s : State} {op : UpdateOp} (h : Grouped s.tasks) :
    Grouped (after s (update s op)) ↔ op.Apart s.tasks := by
  have apart_iff {deps : List TaskId} {task : Task} (hl : op.Lands s.tasks task)
      (hf : op.fields.dependsOn = some deps) {g m y : TaskId} (hm : m ∈ members s.tasks g)
      (hy : y ∈ g :: members s.tasks g) (hne : y ≠ m) :
      ¬ Depends (s.tasks.insert op.task (task.write op.fields)) m y ↔
      (ReflTransGen (Off (dependencies s.tasks).Edge op.task) m op.task →
        ∀ d ∈ deps, ¬ ReflTransGen (Off (dependencies s.tasks).Edge op.task) d y) := by
    have before : ¬ TransGen (Off (dependencies s.tasks).Edge op.task) m y := fun hd =>
      h.apart g m hm y hy hne (TransGen.mono (fun _ _ => And.right) _ _ hd)
    rw [Depends, edge_write hf, transGen_rerouted]
    simp only [before, false_or, not_and, not_exists]
  by_cases hl : ∃ task, op.Lands s.tasks task
  case neg =>
    have ha := after_update.resolve_right hl
    rw [ha]
    exact ⟨fun _ task ht => absurd ⟨task, ht⟩ hl, fun _ => h⟩
  case pos =>
    obtain ⟨task, hl⟩ := hl
    have ht := hl.right.right.right.left
    rw [update_lands hl, after_ok, h.write_iff ht]
    constructor
    case mp =>
      intro ha task' hl' deps hf g m hm y hy hne
      exact apart_iff hl hf hm hy hne |>.mp (ha g m hm y hy hne)
    case mpr =>
      intro ha g m hm y hy hne
      cases hf : op.fields.dependsOn
      case none =>
        rw [depends_congr (next_write_of_none ht hf)]
        exact h.apart g m hm y hy hne
      case some deps =>
        exact apart_iff hl hf hm hy hne |>.mpr (ha task hl deps hf g m hm y hy hne)

theorem after_group (s : State) (op : GroupOp) :
    after s (group s op) = s.tasks ∨
    Joinable s.tasks op ∧ group s op = .ok (true, { s with tasks := s.tasks.mapValues (Task.merge op) }) := by
  unfold group
  split
  case h_1         => exact .inl rfl
  case h_2 rows hg =>
    split
    case h_1    => exact .inl rfl
    case h_2    => exact .inl rfl
    case h_3 hr => exact .inr ⟨joinable hg hr, rfl⟩

theorem after_ungroup (s : State) (op : UngroupOp) :
    after s (ungroup s op) = s.tasks ∨
    ungroup s op =
      .ok (true, { s with tasks := s.tasks.mapValues (Task.release op.lead (released s.tasks op.lead)) }) := by
  unfold ungroup
  split_ifs
  · exact .inl rfl
  · exact .inl rfl
  · exact .inr rfl
  · exact .inl rfl

theorem perform_cases (laneOf : String → String) (s : State) (verb by_ : String) (op : State → Result) :
    after s (perform laneOf s verb by_ op) = s.tasks ∨ perform laneOf s verb by_ op = op s := by
  unfold perform
  split_ifs
  · exact .inl rfl
  · exact .inr rfl

-- An operation that is not applied leaves every task as it is.
theorem apply_unchanged {laneOf : String → String} {s : State} {op : Op} (h : ¬ (apply laneOf s op).Applied) :
    after s (apply laneOf s op) = s.tasks := by
  cases op
  case group op =>
    obtain hp | hp := perform_cases laneOf s "set" op.by_ (group · op)
    · exact hp
    · rw [apply, hp] at h ⊢
      exact (after_group s op).resolve_right fun hg => h (hg.right ▸ rfl)
  case ungroup op =>
    obtain hp | hp := perform_cases laneOf s "release" op.by_ (ungroup · op)
    · exact hp
    · rw [apply, hp] at h ⊢
      exact (after_ungroup s op).resolve_right fun hu => h (hu ▸ rfl)
  case update op =>
    exact after_update.resolve_right fun ⟨_, hl⟩ => h (by rw [apply, update_lands hl]; rfl)

theorem Grouped.apply_iff {laneOf : String → String} {s : State} {op : Op} (h : Grouped s.tasks) :
    Grouped (after s (apply laneOf s op)) ↔ op.Apart s.tasks := by
  cases op
  case group op =>
    refine iff_of_true ?_ trivial
    obtain hp | hp := perform_cases laneOf s "set" op.by_ (group · op)
    · exact hp ▸ h
    · rw [apply, hp]
      obtain hg | ⟨hj, hg⟩ := after_group s op
      · exact hg ▸ h
      · exact hg ▸ h.merge hj
  case ungroup op =>
    refine iff_of_true ?_ trivial
    obtain hp | hp := perform_cases laneOf s "release" op.by_ (ungroup · op)
    · exact hp ▸ h
    · rw [apply, hp]
      obtain hu | hu := after_ungroup s op
      · exact hu ▸ h
      · rw [hu, h.released_eq]
        exact h.release op.lead
  case update op => exact h.update_iff

-- Of the three operations only an update can break the groups, and it does exactly when the dependencies it writes
-- lead a member to its own group. The checks of a group ask for this, those of an update do not.
theorem grouped_after_iff (laneOf : String → String) (s : State) (op : Op) :
    (Grouped s.tasks → Grouped (after s (apply laneOf s op))) ∧
      (¬ (apply laneOf s op).Applied → after s (apply laneOf s op) = s.tasks) ↔
    (Grouped s.tasks → op.Apart s.tasks) := by
  constructor
  case mp  => exact fun ha h => h.apply_iff.mp (ha.left h)
  case mpr => exact fun ha => ⟨fun h => h.apply_iff.mpr (ha h), apply_unchanged⟩

section Example

def leadTask : TaskId :=
  ⟨"t1", by decide⟩

def memberTask : TaskId :=
  ⟨"t2", by decide⟩

def openTask : Task where
  state        := some "open"
  claimedBy    := ""
  lane         := some "eng"
  profile      := none
  kind         := some "code"
  difficulty   := some "S"
  dependsOn    := []
  mergedInto   := none
  groupMembers := none

def pair : State where
  tasks   := ((∅ : Tasks).insert memberTask { openTask with mergedInto := some leadTask }).insert leadTask
    { openTask with groupMembers := some [memberTask] }
  refused := []

def onLead : UpdateOp where
  task   := memberTask
  fields := ⟨none, none, none, none, none, some [leadTask], none⟩
  checks := ⟨none, false, none, false, none, none⟩

theorem pair_lookup (id : TaskId) : pair.tasks.lookup id =
    if id = leadTask then some { openTask with groupMembers := some [memberTask] }
    else if id = memberTask then some { openTask with mergedInto := some leadTask }
    else none := by
  by_cases hl : id = leadTask <;> by_cases hm : id = memberTask <;>
    simp [pair, Finmap.lookup_insert_ite, hl, hm]

theorem pair_grouped : Grouped pair.tasks := by
  have hm (id : TaskId) : members pair.tasks id = if id = leadTask then [memberTask] else [] := by
    rw [members, pair_lookup]
    split_ifs <;> rfl
  have hi (id : TaskId) : mergedInto pair.tasks id = if id = memberTask then some leadTask else none := by
    rw [mergedInto, pair_lookup]
    split_ifs with hl hm <;> simp_all [openTask, leadTask, memberTask]
  have hn (id : TaskId) : next pair.tasks id = [] := by
    rw [next, pair_lookup]
    split_ifs <;> rfl
  apply Grouped.of
  case hl =>
    intro t g
    rw [hi, hm]
    split_ifs <;> simp_all [eq_comm]
  case hn =>
    intro g
    rw [hm]
    split_ifs <;> simp
  case hf =>
    intro g h
    rw [hm] at h
    split_ifs at h with hg
    · rw [hi, hg, if_neg (by decide)]
    · exact absurd rfl h
  case ha =>
    intro g m _ y _ _ hd
    obtain ⟨b, hb, _⟩ := TransGen.head'_iff.mp hd
    rw [dependencies_edge, hn] at hb
    cases hb

-- The lead `t1` delivers the work of `t2`, and an update makes `t2` depend on `t1`.
theorem member_waits_on_lead :
    Grouped pair.tasks ∧ ¬ Grouped (after pair (apply id pair (.update onLead))) := by
  refine ⟨pair_grouped, fun h => ?_⟩
  have lands : onLead.Lands pair.tasks { openTask with mergedInto := some leadTask } := by
    refine ⟨rfl, rfl, rfl, rfl, ?_, rfl, rfl, by decide, rfl⟩
    intro d hd
    obtain rfl : d = leadTask := by simpa [onLead] using hd
    exact ⟨Finmap.mem_of_lookup_eq_some (pair_lookup leadTask), by decide⟩
  have hm : memberTask ∈ members pair.tasks leadTask := by
    rw [members, pair_lookup]
    exact List.mem_singleton_self _
  have ha : onLead.Apart pair.tasks := pair_grouped.apply_iff.mp h
  exact ha _ lands [leadTask] rfl leadTask memberTask hm leadTask List.mem_cons_self
    (by decide) .refl leadTask (List.mem_singleton_self _) .refl

end Example

end Grouping
