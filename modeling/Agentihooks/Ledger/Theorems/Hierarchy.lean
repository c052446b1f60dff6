import Agentihooks.Ledger.Hierarchy

-- The index follows the ledger: after each synchronisation the tables hold what the ledger's state has, whatever they
-- held before, and the next one finds nothing to do.

namespace Hierarchy

variable {t t' : Tables} {state : State} {index : Index} {kind : Kind} {id : String} {n : Node} {e : String × String}

-- What stands in a collection under an id.
def Sourced (state : State) (id : String) (n : Node) : Prop :=
  ∃ item x, (items state n.kind)[n.position]? = some item ∧ text (item.get? "id") = some x ∧ id = name n.kind x

structure Projected (state : State) (index : Index) : Prop where
  sourced : ∀ id n, index.nodes.lookup id = some n → Sourced state id n
  keyed   : ∀ e ∈ index.dependencies, e.1 ∈ index.nodes.keys

theorem Projected.add {x : JsonValue × ℕ} (h : Projected state index) (hx : (items state kind)[x.2]? = some x.1) :
    Projected state (add kind index x) := by
  unfold Hierarchy.add
  split
  case h_1 => exact h
  case h_2 id hid =>
    constructor
    case sourced =>
      intro k n hn
      simp only at hn
      by_cases hk : k = name kind id
      case pos =>
        subst hk
        rw [AList.lookup_insert] at hn
        cases hn
        exact ⟨x.1, id, hx, hid, rfl⟩
      case neg =>
        rw [AList.lookup_insert_ne hk] at hn
        exact h.sourced k n hn
    case keyed =>
      intro e he
      simp only [List.mem_union_iff, List.mem_map] at he
      rw [← AList.mem_keys, AList.mem_insert]
      obtain ⟨_, _, rfl⟩ | he := he
      · exact .inl rfl
      · exact .inr (AList.mem_keys.mpr (h.keyed e he))

theorem projected (state : State) : Projected state (project state) := by
  refine List.foldlRecOn kinds _ ⟨?_, ?_⟩ fun index h kind _ => ?_
  · exact fun _ _ h => by cases h
  · exact fun _ h => absurd h List.not_mem_nil
  · refine List.foldlRecOn _ (add kind) h fun index h x hx => h.add ?_
    exact List.mk_mem_zipIdx_iff_getElem?.mp hx

-- No two nodes have the same kind and the same position.
theorem Projected.injective {id' : String} (h : Projected state index) (hn : index.nodes.lookup id = some n)
    (hn' : index.nodes.lookup id' = some n) : id = id' := by
  obtain ⟨item, x, hi, hx, he⟩ := h.sourced id n hn
  obtain ⟨item', x', hi', hx', he'⟩ := h.sourced id' n hn'
  cases hi.symm.trans hi'
  cases hx.symm.trans hx'
  exact he.trans he'.symm

-- The tables hold what the index has.
structure Holds (t : Tables) (index : Index) : Prop where
  nodes        : ∀ id, t.nodes.lookup id = index.nodes.lookup id
  dependencies : ∀ e, e ∈ t.dependencies ↔ e ∈ index.dependencies

theorem Holds.keys (h : Holds t index) : id ∈ t.nodes.keys ↔ id ∈ index.nodes.keys := by
  rw [KeyTable.mem_keys_iff, KeyTable.mem_keys_iff, h.nodes]

section Statements

variable {ids : List String} {xs : List (String × Node)} {edges : List (String × String)}

theorem lookup_deleteNodes :
    (ids.foldl Tables.deleteNode t).nodes.lookup id = if id ∈ ids then none else t.nodes.lookup id := by
  induction ids generalizing t
  case nil => simp
  case cons k ids hi =>
    rw [List.foldl_cons, hi]
    by_cases hk : id = k
    case pos =>
      subst hk
      simp [Tables.deleteNode]
    case neg => simp [hk, Tables.deleteNode, AList.lookup_erase_ne hk]

theorem dependencies_deleteNodes :
    e ∈ (ids.foldl Tables.deleteNode t).dependencies ↔ e ∈ t.dependencies ∧ e.1 ∉ ids := by
  induction ids generalizing t
  case nil => simp
  case cons k ids hi =>
    rw [List.foldl_cons, hi]
    simp [Tables.deleteNode, and_assoc]

theorem nodes_upsertNodes : (xs.foldl Tables.upsertNode t).nodes = xs.foldl (fun t x => t.insert x.1 x.2) t.nodes := by
  induction xs generalizing t
  case nil => rfl
  case cons x xs hi => exact hi

theorem dependencies_upsertNodes : (xs.foldl Tables.upsertNode t).dependencies = t.dependencies := by
  induction xs generalizing t
  case nil => rfl
  case cons x xs hi => exact hi

theorem nodes_deleteDependencies : (edges.foldl Tables.deleteDependency t).nodes = t.nodes := by
  induction edges generalizing t
  case nil => rfl
  case cons x edges hi => exact hi

theorem dependencies_deleteDependencies :
    e ∈ (edges.foldl Tables.deleteDependency t).dependencies ↔ e ∈ t.dependencies ∧ e ∉ edges := by
  induction edges generalizing t
  case nil => simp
  case cons d edges hi =>
    rw [List.foldl_cons, hi]
    simp [Tables.deleteDependency, and_assoc]

theorem insertDependency_spec (h : e.1 ∈ t.nodes.keys) : ∃ t', t.insertDependency e = some t' ∧ t'.nodes = t.nodes ∧
    ∀ d, d ∈ t'.dependencies ↔ d ∈ t.dependencies ∨ d = e := by
  unfold Tables.insertDependency
  split_ifs with hm
  case pos =>
    refine ⟨t, rfl, rfl, fun d => ⟨.inl, ?_⟩⟩
    rintro (hd | rfl)
    · exact hd
    · exact hm
  case neg => exact ⟨_, rfl, rfl, by simp⟩

-- The foreign key holds of an edge whose node there is.
theorem insertDependencies_spec (h : ∀ e ∈ edges, e.1 ∈ t.nodes.keys) :
    ∃ t', edges.foldlM Tables.insertDependency t = some t' ∧ t'.nodes = t.nodes ∧
      ∀ e, e ∈ t'.dependencies ↔ e ∈ t.dependencies ∨ e ∈ edges := by
  induction edges generalizing t
  case nil => exact ⟨t, rfl, rfl, by simp⟩
  case cons d edges hi =>
    rw [List.forall_mem_cons] at h
    obtain ⟨t₁, hs, hn, hd⟩ := insertDependency_spec h.left
    obtain ⟨t₂, hs', hn', hd'⟩ := hi (hn ▸ h.right)
    refine ⟨t₂, ?_, hn'.trans hn, fun e => ?_⟩
    · rw [List.foldlM_cons, hs]
      exact hs'
    · rw [hd', hd, List.mem_cons, or_assoc]

end Statements

-- Whatever the tables held: a node that stays is not deleted, hence its dependencies are not either.
theorem apply_spec (hk : ∀ e ∈ index.dependencies, e.1 ∈ index.nodes.keys) :
    ∃ t', apply t (stored t) index = some t' ∧ Holds t' index := by
  let gone     := t.nodes.keys.filter (· ∉ index.nodes.keys)
  let changed  := index.nodes.toList.filter fun x => t.nodes.lookup x.1 ≠ some x.2
  let dropped  := t.dependencies.filter (· ∉ index.dependencies)
  let t₁       := gone.foldl Tables.deleteNode t
  let t₂       := changed.foldl Tables.upsertNode t₁
  let t₃       := dropped.foldl Tables.deleteDependency t₂
  have looks : ∀ id, t₃.nodes.lookup id = index.nodes.lookup id := fun id => by
    have hc : ((changed.map fun x => (x.1, some x.2)).map Prod.fst).Nodup := by
      rw [List.map_map]
      exact KeyTable.nodup_toList.sublist (List.filter_sublist.map _)
    have he : t₃.nodes = changed.foldl (fun t x => t.insert x.1 x.2) t₁.nodes :=
      nodes_deleteDependencies.trans nodes_upsertNodes
    rw [he, KeyTable.foldl_insert, KeyTable.lookup_foldl_change hc, KeyTable.lookup_map_snd, lookup_deleteNodes]
    cases hn : index.nodes.lookup id
    case none =>
      have hm : id ∉ index.nodes.keys := fun hm => KeyTable.mem_keys_iff.mp hm hn
      have hl : changed.lookup id = none := KeyTable.lookup_eq_none_of_not_mem fun hl => by
        obtain ⟨x, hx, rfl⟩ := List.mem_map.mp hl
        cases hn.symm.trans (KeyTable.mem_toList.mp (List.mem_of_mem_filter hx))
      rw [hl]
      by_cases hs : id ∈ t.nodes.keys
      case pos => simp [gone, hs, hm]
      case neg =>
        rw [KeyTable.mem_keys_iff, not_not] at hs
        simp [hs]
    case some n =>
      have hm : id ∉ gone := by simp [gone, KeyTable.mem_keys_iff, hn]
      rw [if_neg hm]
      by_cases hs : t.nodes.lookup id = some n
      case pos =>
        have hl : changed.lookup id = none := KeyTable.lookup_eq_none_of_not_mem fun hl => by
          obtain ⟨x, hx, rfl⟩ := List.mem_map.mp hl
          obtain ⟨hx, hd⟩ := List.mem_filter.mp hx
          cases hn.symm.trans (KeyTable.mem_toList.mp hx)
          exact of_decide_eq_true hd hs
        rw [hl]
        exact hs
      case neg =>
        have hl : changed.lookup id = some n := by
          refine (JsonValue.lookup_eq_some_iff_mem (KeyTable.nodup_toList.sublist (List.filter_sublist.map _))).mpr ?_
          exact List.mem_filter.mpr ⟨KeyTable.mem_toList.mpr hn, decide_eq_true hs⟩
        rw [hl]
        rfl
  have edges : ∀ e, e ∈ t₃.dependencies ↔ (e ∈ t.dependencies ∧ e.1 ∉ gone) ∧ e ∉ dropped := fun e => by
    rw [dependencies_deleteDependencies, dependencies_upsertNodes, dependencies_deleteNodes]
  have keys : ∀ id, id ∈ t₃.nodes.keys ↔ id ∈ index.nodes.keys := fun id => by
    rw [KeyTable.mem_keys_iff, looks, ← KeyTable.mem_keys_iff]
  have keyed : ∀ e ∈ index.dependencies.filter (· ∉ t.dependencies), e.1 ∈ t₃.nodes.keys :=
    fun e he => (keys e.1).mpr (hk e (List.mem_of_mem_filter he))
  obtain ⟨t', hs, hn, hd⟩ := insertDependencies_spec keyed
  refine ⟨t', hs, fun id => hn ▸ looks id, fun e => ?_⟩
  rw [hd, edges]
  by_cases hi : e ∈ index.dependencies
  case pos =>
    have hm : e.1 ∉ gone := by simp [gone, hk e hi]
    by_cases hs : e ∈ t.dependencies
    case pos => simp [hs, hi, hm, dropped]
    case neg => simp [hs, hi]
  case neg =>
    by_cases hs : e ∈ t.dependencies
    case pos => simp [hs, hi, dropped]
    case neg => simp [hs, hi]

section Settled

variable (h : Holds t index)
include h

theorem Holds.gone : (stored t).nodes.keys.filter (· ∉ index.nodes.keys) = [] := by
  simp [List.filter_eq_nil_iff, stored, h.keys]

theorem Holds.new : index.nodes.keys.filter (· ∉ (stored t).nodes.keys) = [] := by
  simp [List.filter_eq_nil_iff, stored, h.keys]

theorem Holds.changed : (index.nodes.toList.filter fun x => (stored t).nodes.lookup x.1 ≠ some x.2) = [] := by
  refine List.filter_eq_nil_iff.mpr fun x hx => ?_
  simp [stored, h.nodes, KeyTable.mem_toList.mp hx]

theorem Holds.dropped : (stored t).dependencies.filter (· ∉ index.dependencies) = [] := by
  simp [List.filter_eq_nil_iff, stored, h.dependencies]

theorem Holds.missing : index.dependencies.filter (· ∉ (stored t).dependencies) = [] := by
  simp [List.filter_eq_nil_iff, stored, h.dependencies]

theorem Holds.apply : apply t (stored t) index = some t := by
  simp only [Hierarchy.apply, h.gone, h.changed, h.dropped, h.missing]
  rfl

theorem Holds.drift : drift (stored t) index = ⟨[], [], [], [], [], 0⟩ := by
  have hc : (index.nodes.keys.filter fun id =>
      id ∈ (stored t).nodes.keys ∧ (stored t).nodes.lookup id ≠ index.nodes.lookup id) = [] := by
    simp [stored, h.nodes]
  simp only [Hierarchy.drift, h.gone, h.new, h.dropped, h.missing, hc]
  rfl

end Settled

theorem sync_spec (t : Tables) (state : State) : ∃ t', sync t state = some t' ∧ Holds t' (project state) :=
  apply_spec (projected state).keyed

theorem syncs_spec (t : Tables) (states : List State) : ∃ t', states.foldlM sync t = some t' := by
  induction states generalizing t
  case nil => exact ⟨t, rfl⟩
  case cons state states hi =>
    obtain ⟨t₁, hs, _⟩ := sync_spec t state
    rw [List.foldlM_cons, hs]
    exact hi t₁

section Rebuild

instance total_dependencies : Std.Total fun e e' : String × String => e.1 < e'.1 ∨ e.1 = e'.1 ∧ e.2 ≤ e'.2 :=
  ⟨fun e e' => by
    obtain h | h | h := lt_trichotomy e.1 e'.1
    · exact .inl (.inl h)
    · exact (le_total e.2 e'.2).imp (fun hl => .inr ⟨h, hl⟩) fun hl => .inr ⟨h.symm, hl⟩
    · exact .inr (.inl h)⟩

-- What is reported of two indexes: the keys and edges by which they differ.
structure Reports (had want : Index) (report : Drift) : Prop where
  missing : ∀ id, id ∈ report.missingNodes ↔ id ∈ want.nodes.keys ∧ id ∉ had.nodes.keys
  extra   : ∀ id, id ∈ report.extraNodes ↔ id ∈ had.nodes.keys ∧ id ∉ want.nodes.keys
  changed : ∀ id, id ∈ report.changedNodes ↔
    ∃ n n', had.nodes.lookup id = some n ∧ want.nodes.lookup id = some n' ∧ n ≠ n'
  absent  : ∀ e, e ∈ report.missingDependencies ↔ e ∈ want.dependencies ∧ e ∉ had.dependencies
  dropped : ∀ e, e ∈ report.extraDependencies ↔ e ∈ had.dependencies ∧ e ∉ want.dependencies
  sorted  : report.missingNodes.Pairwise (· ≤ ·) ∧ report.extraNodes.Pairwise (· ≤ ·) ∧
    report.changedNodes.Pairwise (· ≤ ·)
  total   : report.drift = 0 ↔ report.missingNodes = [] ∧ report.extraNodes = [] ∧ report.changedNodes = [] ∧
    report.missingDependencies = [] ∧ report.extraDependencies = []

theorem drift_reports (had want : Index) : Reports had want (drift had want) where
  missing id := by simp [drift]
  extra id   := by simp [drift]
  absent e   := by simp [drift, sortedEdges]
  dropped e  := by simp [drift, sortedEdges]
  changed id := by
    simp only [drift, List.mem_insertionSort, List.mem_filter, decide_eq_true_iff, KeyTable.mem_keys_iff,
      Option.ne_none_iff_exists']
    constructor
    case mp =>
      rintro ⟨⟨n', hw⟩, ⟨n, hh⟩, hne⟩
      rw [hw, hh] at hne
      exact ⟨n, n', hh, hw, fun he => hne (congrArg some he)⟩
    case mpr =>
      rintro ⟨n, n', hh, hw, hne⟩
      refine ⟨⟨n', hw⟩, ⟨n, hh⟩, ?_⟩
      rw [hh, hw]
      exact fun he => hne (Option.some.inj he)
  sorted := ⟨List.pairwise_insertionSort _ _, List.pairwise_insertionSort _ _, List.pairwise_insertionSort _ _⟩
  total  := by
    simp only [drift, Nat.add_eq_zero_iff, List.length_eq_zero_iff, and_assoc]

-- Nothing is reported exactly when the tables hold the index.
theorem Reports.drift_eq_zero {report : Drift} (h : Reports (stored t) index report) : report.drift = 0 ↔ Holds t index := by
  rw [h.total]
  constructor
  case mp =>
    rintro ⟨hm, he, hc, ha, hd⟩
    constructor
    case nodes =>
      intro id
      have missing := h.missing id
      have extra := h.extra id
      have changed := h.changed id
      simp only [hm, he, hc, List.not_mem_nil, false_iff, KeyTable.mem_keys_iff, stored] at missing extra changed
      cases hw : index.nodes.lookup id
      case none =>
        rw [hw] at extra
        simpa using extra
      case some n' =>
        rw [hw] at missing
        obtain ⟨n, hn⟩ := Option.ne_none_iff_exists'.mp (fun hn => missing ⟨Option.some_ne_none n', not_not.mpr hn⟩)
        refine hn.trans (congrArg some (Classical.byContradiction fun hne => changed ⟨n, n', hn, hw, hne⟩))
    case dependencies =>
      intro e
      have absent := h.absent e
      have dropped := h.dropped e
      simp only [ha, hd, List.not_mem_nil, false_iff, not_and, not_not, stored] at absent dropped
      exact ⟨dropped, absent⟩
  case mpr =>
    intro hh
    have none : ∀ {α : Type} {l : List α}, (∀ x, x ∉ l) → l = [] := List.eq_nil_iff_forall_not_mem.mpr
    refine ⟨none fun id hm => ?_, none fun id hm => ?_, none fun id hm => ?_, none fun e hm => ?_, none fun e hm => ?_⟩
    · obtain ⟨hw, hn⟩ := (h.missing id).mp hm
      exact hn (hh.keys.mpr hw)
    · obtain ⟨hw, hn⟩ := (h.extra id).mp hm
      exact hn (hh.keys.mp hw)
    · obtain ⟨n, n', hn, hw, hne⟩ := (h.changed id).mp hm
      exact hne (Option.some.inj ((hn.symm.trans (hh.nodes id)).trans hw))
    · obtain ⟨hw, hn⟩ := (h.absent e).mp hm
      exact hn ((hh.dependencies e).mpr hw)
    · obtain ⟨hw, hn⟩ := (h.dropped e).mp hm
      exact hn ((hh.dependencies e).mp hw)

-- A rebuild says what was wrong with the tables, all of it and nothing else, and puts it right for good.
theorem rebuild_repairs (t : Tables) (state : State) : ∃ t' report, rebuild t state = some (t', report) ∧
    Holds t' (project state) ∧ Reports (stored t) (project state) report ∧
    (report.drift = 0 ↔ Holds t (project state)) ∧ rebuild t' state = some (t', ⟨[], [], [], [], [], 0⟩) := by
  obtain ⟨t', hs, hh⟩ := sync_spec t state
  have reports := drift_reports (stored t) (project state)
  refine ⟨t', drift (stored t) (project state), ?_, hh, reports, reports.drift_eq_zero, ?_⟩
  · rw [rebuild, show apply t (stored t) (project state) = some t' from hs]
    rfl
  · rw [rebuild, hh.apply, Option.map_some, hh.drift]

end Rebuild

end Hierarchy
