import Mathlib.Logic.Relation
import Agentihooks.Claiming.Focus

-- A number that is found is right for every task whose chains have an end: no task on the path to such a task is one
-- that waits on it, hence none is left out where its chains are counted.

namespace ClaimOrder

open Relation

section Depths

variable {waiting : KeyTable String (List String)} {found found' : KeyTable String ℕ} {a b task : String} {n m : ℕ}
  {l tasks seen : List String}

-- Another task that waits on a task.
def Next (waiting : KeyTable String (List String)) (a b : String) : Prop :=
  a ≠ b ∧ b ∈ (waiting.lookup a).getD []

-- No cycle of two or more tasks is reachable.
def Tame (R : String → String → Prop) (a : String) : Prop :=
  ∀ b, ReflTransGen R a b → ¬ TransGen R b b

-- The length of the longest chain from a task on.
def Longest (R : String → String → Prop) (a : String) (n : ℕ) : Prop :=
  (∃ l, List.IsChain R (a :: l) ∧ l.length = n) ∧ ∀ l, List.IsChain R (a :: l) → l.length ≤ n

def Right (waiting : KeyTable String (List String)) (found : KeyTable String ℕ) : Prop :=
  ∀ a n, found.lookup a = some n → Tame (Next waiting) a → Longest (Next waiting) a n

def Grows (found found' : KeyTable String ℕ) : Prop :=
  ∀ a n, found.lookup a = some n → found'.lookup a = some n

theorem Longest.unique {R : String → String → Prop} (h : Longest R a n) (h' : Longest R a m) : n = m := by
  obtain ⟨⟨l, hl, rfl⟩, hle⟩ := h
  obtain ⟨⟨l', hl', rfl⟩, hle'⟩ := h'
  exact Nat.le_antisymm (hle' l hl) (hle l' hl')

theorem Tame.next {R : String → String → Prop} (h : Tame R a) (hab : R a b) : Tame R b :=
  fun c hc => h c (.head hab hc)

theorem Right.insert (h : Right waiting found) (hn : Tame (Next waiting) task → Longest (Next waiting) task n) :
    Right waiting (found.insert task n) := by
  intro a m hm ht
  by_cases ha : a = task
  case pos =>
    subst ha
    rw [AList.lookup_insert, Option.some_inj] at hm
    exact hm ▸ hn ht
  case neg =>
    rw [AList.lookup_insert_ne ha] at hm
    exact h a m hm ht

theorem Grows.insert (hg : Grows found found') (h : found.lookup task = none) : Grows found (found'.insert task n) := by
  intro a m hm
  have ha : a ≠ task := by
    rintro rfl
    rw [h] at hm
    cases hm
  rw [AList.lookup_insert_ne ha]
  exact hg a m hm

theorem Longest.of_chains {R : String → String → Prop} {ns : List ℕ}
    (hle : ∀ b, R a b → ∃ m, Longest R b m ∧ m + 1 ∈ ns) (hmem : ∀ n ∈ ns, ∃ b m, R a b ∧ Longest R b m ∧ n = m + 1) :
    Longest R a (ns.max?.getD 0) := by
  constructor
  case left =>
    cases hn : ns.max?
    case none => exact ⟨[], .singleton a, rfl⟩
    case some n =>
      obtain ⟨b, m, hab, hb, rfl⟩ := hmem n (List.max?_eq_some_iff.mp hn).left
      obtain ⟨l, hl, rfl⟩ := hb.left
      exact ⟨b :: l, .cons_cons hab hl, rfl⟩
  case right =>
    intro l hl
    cases l
    case nil => exact Nat.zero_le _
    case cons b l =>
      obtain ⟨hab, hl⟩ := List.isChain_cons_cons.mp hl
      obtain ⟨m, hb, hm⟩ := hle b hab
      obtain ⟨n, hn⟩ := Option.isSome_iff_exists.mp (List.isSome_max?_of_mem hm)
      rw [hn, Option.getD_some, List.length_cons]
      exact (Nat.succ_le_succ (hb.right l hl)).trans ((List.max?_eq_some_iff.mp hn).right _ hm)

theorem depth_known {hs : task ∉ seen} (h : found.lookup task = some n) :
    depth waiting task found seen hs = (n, found) := by
  rw [depth, h]

theorem depth_alone {hs : task ∉ seen} (h : found.lookup task = none) (hw : waiting.lookup task = none) :
    depth waiting task found seen hs = (0, found.insert task 0) := by
  rw [depth, h]
  dsimp only
  split
  case h_1   => rfl
  case h_2 h => rw [hw] at h; cases h

theorem depth_waited {hs : task ∉ seen} (h : found.lookup task = none) (hw : waiting.lookup task = some tasks) :
    depth waiting task found seen hs = ((chains waiting tasks found (task :: seen)).1.max?.getD 0,
      (chains waiting tasks found (task :: seen)).2.insert task
        ((chains waiting tasks found (task :: seen)).1.max?.getD 0)) := by
  rw [depth, h]
  dsimp only
  split
  case h_1 h => rw [hw] at h; cases h
  case h_2 h =>
    rw [hw, Option.some_inj] at h
    rw [h]

-- What there is after the chains of some tasks on a path: each of the tasks off the path has a number in the list.
structure Counted (waiting : KeyTable String (List String)) (tasks seen : List String) (found : KeyTable String ℕ)
    (result : List ℕ × KeyTable String ℕ) : Prop where
  right : Right waiting result.2
  grows : Grows found result.2
  count : ∀ n, n ∈ result.1 ↔ ∃ b ∈ tasks, b ∉ seen ∧ ∃ m, result.2.lookup b = some m ∧ n = m + 1
  every : ∀ b ∈ tasks, b ∉ seen → ∃ m, result.2.lookup b = some m

-- A task is counted where the path to it is one.
theorem counted_chains (hr : Right waiting found)
    (hs : ∀ b ∈ tasks, b ∉ seen → ∀ a ∈ seen, TransGen (Next waiting) a b) :
    Counted waiting tasks seen found (chains waiting tasks found seen) := by
  refine chains.induct waiting
    (fun task found seen hs => Right waiting found → (∀ a ∈ seen, TransGen (Next waiting) a task) →
      Right waiting (depth waiting task found seen hs).2 ∧ Grows found (depth waiting task found seen hs).2 ∧
        (depth waiting task found seen hs).2.lookup task = some (depth waiting task found seen hs).1)
    (fun tasks found seen => Right waiting found →
      (∀ b ∈ tasks, b ∉ seen → ∀ a ∈ seen, TransGen (Next waiting) a b) →
        Counted waiting tasks seen found (chains waiting tasks found seen))
    ?known ?alone ?waited ?nil ?seen ?cons tasks found seen hr hs
  case known =>
    intro task found seen hs n hn hr _
    rw [depth_known hn]
    exact ⟨hr, fun _ _ h => h, hn⟩
  case alone =>
    intro task found seen hs hn hw hr _
    rw [depth_alone hn hw]
    refine ⟨hr.insert fun _ => ?_, .insert (fun _ _ h => h) hn, AList.lookup_insert _⟩
    have hl : Longest (Next waiting) task (([] : List ℕ).max?.getD 0) := by
      refine .of_chains (fun b hb => ?_) (List.forall_mem_nil _)
      rw [Next, hw] at hb
      cases hb.right
    exact hl
  case waited =>
    intro task found seen hs hn tasks hw hi hr hpath
    rw [depth_waited hn hw]
    have hnext : ∀ b ∈ tasks, b ∉ task :: seen → Next waiting task b := by
      intro b hb hbs
      rw [List.mem_cons, not_or] at hbs
      exact ⟨Ne.symm hbs.left, by rw [hw]; exact hb⟩
    have hc := hi hr fun b hb hbs a ha => by
      obtain rfl | ha := List.mem_cons.mp ha
      · exact .single (hnext b hb hbs)
      · exact (hpath a ha).tail (hnext b hb hbs)
    refine ⟨hc.right.insert fun ht => ?_, hc.grows.insert hn, AList.lookup_insert _⟩
    refine Longest.of_chains (fun b hb => ?_) fun n hn => ?_
    case refine_1 =>
      have hm : b ∈ tasks := by simpa [hw] using hb.right
      have hbs : b ∉ task :: seen := by
        rw [List.mem_cons, not_or]
        exact ⟨hb.left.symm, fun hs => ht task .refl (.head hb (hpath b hs))⟩
      obtain ⟨m, hm'⟩ := hc.every b hm hbs
      exact ⟨m, hc.right b m hm' (ht.next hb), (hc.count _).mpr ⟨b, hm, hbs, m, hm', rfl⟩⟩
    case refine_2 =>
      obtain ⟨b, hm, hbs, m, hm', rfl⟩ := (hc.count n).mp hn
      have hb := hnext b hm hbs
      exact ⟨b, m, hb, hc.right b m hm' (ht.next hb), rfl⟩
  case nil =>
    intro found seen hr _
    rw [chains]
    exact ⟨hr, fun _ _ h => h, fun n => by simp, List.forall_mem_nil _⟩
  case seen =>
    intro task tasks found seen hs hi hr hpath
    have hc := hi hr fun b hb => hpath b (List.mem_cons_of_mem _ hb)
    rw [chains, dif_pos hs]
    refine ⟨hc.right, hc.grows, fun n => ?_, fun b hb hbs => ?_⟩
    case refine_1 =>
      rw [hc.count, List.exists_mem_cons_iff]
      simp [hs]
    case refine_2 =>
      obtain rfl | hb := List.mem_cons.mp hb
      · exact absurd hs hbs
      · exact hc.every b hb hbs
  case cons =>
    intro task tasks found seen hs first hi hi' hr hpath
    obtain ⟨hr', hg', hl⟩ := hi hr (hpath task List.mem_cons_self hs)
    have hc := hi' hr' fun b hb => hpath b (List.mem_cons_of_mem _ hb)
    have hl' := hc.grows _ _ hl
    rw [chains, dif_neg hs]
    refine ⟨hc.right, fun a n hn => hc.grows a n (hg' a n hn), fun n => ?_, fun b hb hbs => ?_⟩
    case refine_1 =>
      rw [List.mem_cons, hc.count, List.exists_mem_cons_iff]
      simp [hs, hl', first]
    case refine_2 =>
      obtain rfl | hb := List.mem_cons.mp hb
      · exact ⟨_, hl'⟩
      · exact hc.every b hb hbs

end Depths

section Rows

variable {rows rows' : List Task} {table : KeyTable String (List String)} {t : Task} {a b dep : String} {l : List String}
  {n : ℕ}

-- Another open task that depends on a task.
def Waits (rows : List Task) (a b : String) : Prop :=
  a ≠ b ∧ ∃ t ∈ rows, t.id = b ∧ t.isOpen ∧ a ∈ t.dependsOn.getD []

theorem mem_wait : b ∈ ((wait t table dep).lookup a).getD [] ↔ (a = dep ∧ b = t.id) ∨ b ∈ (table.lookup a).getD [] := by
  rw [wait]
  by_cases h : a = dep
  case pos =>
    subst h
    rw [AList.lookup_insert, Option.getD_some, List.mem_append, List.mem_singleton, or_comm]
    simp
  case neg =>
    rw [AList.lookup_insert_ne h]
    simp [h]

theorem mem_foldl_wait : b ∈ ((l.foldl (wait t) table).lookup a).getD [] ↔
    (a ∈ l ∧ b = t.id) ∨ b ∈ (table.lookup a).getD [] := by
  induction l generalizing table
  case nil => simp
  case cons dep l hi =>
    rw [List.foldl_cons, hi, mem_wait, List.mem_cons]
    constructor
    case mp =>
      rintro (⟨ha, hb⟩ | ⟨ha, hb⟩ | hm)
      · exact .inl ⟨.inr ha, hb⟩
      · exact .inl ⟨.inl ha, hb⟩
      · exact .inr hm
    case mpr =>
      rintro (⟨ha | ha, hb⟩ | hm)
      · exact .inr (.inl ⟨ha, hb⟩)
      · exact .inl ⟨ha, hb⟩
      · exact .inr (.inr hm)

theorem mem_waiting : b ∈ ((waiting rows).lookup a).getD [] ↔
    ∃ t ∈ rows, t.id = b ∧ t.isOpen ∧ a ∈ t.dependsOn.getD [] := by
  have hf (rows : List Task) (table : KeyTable String (List String)) : b ∈ ((rows.foldl (fun waiting task =>
      if task.isOpen then (task.dependsOn.getD []).foldl (wait task) waiting else waiting) table).lookup a).getD [] ↔
      (∃ t ∈ rows, t.id = b ∧ t.isOpen ∧ a ∈ t.dependsOn.getD []) ∨ b ∈ (table.lookup a).getD [] := by
    induction rows generalizing table
    case nil => simp
    case cons t rows hi =>
      rw [List.foldl_cons, hi, List.exists_mem_cons_iff]
      split_ifs with ho
      case pos =>
        have hc : a ∈ t.dependsOn.getD [] ∧ b = t.id ↔ t.id = b ∧ t.isOpen ∧ a ∈ t.dependsOn.getD [] :=
          ⟨fun h => ⟨h.right.symm, ho, h.left⟩, fun h => ⟨h.right.right, h.left.symm⟩⟩
        rw [mem_foldl_wait, hc, or_left_comm, or_assoc]
      case neg => simp [ho]
  rw [waiting, hf]
  simp

theorem next_waiting : Next (waiting rows) a b ↔ Waits rows a b := by
  rw [Next, mem_waiting, Waits]

theorem depth_right {waiting : KeyTable String (List String)} {found : KeyTable String ℕ} (hr : Right waiting found) :
    Right waiting (depth waiting a found [] List.not_mem_nil).2 ∧
      Grows found (depth waiting a found [] List.not_mem_nil).2 ∧
        ∃ n, (depth waiting a found [] List.not_mem_nil).2.lookup a = some n := by
  have hc : Counted waiting [a] [] found (chains waiting [a] found []) :=
    counted_chains hr fun _ _ _ _ hm => by cases hm
  have he : chains waiting [a] found [] = ([(depth waiting a found [] List.not_mem_nil).1 + 1],
      (depth waiting a found [] List.not_mem_nil).2) := by
    rw [chains, dif_neg List.not_mem_nil]
    simp only [chains]
  rw [he] at hc
  exact ⟨hc.right, hc.grows, hc.every a List.mem_cons_self List.not_mem_nil⟩

variable (rows) in
theorem foldl_depth_right {waiting : KeyTable String (List String)} {found : KeyTable String ℕ}
    (hr : Right waiting found) :
    let last := rows.foldl (fun found task => (depth waiting task.id found [] List.not_mem_nil).2) found
    Right waiting last ∧ Grows found last ∧ ∀ t ∈ rows, ∃ n, last.lookup t.id = some n := by
  induction rows generalizing found
  case nil => exact ⟨hr, fun _ _ h => h, List.forall_mem_nil _⟩
  case cons t rows hi =>
    obtain ⟨hr', hg, n, hn⟩ := depth_right (a := t.id) hr
    obtain ⟨hl, hg', hall⟩ := hi hr'
    exact ⟨hl, fun a m h => hg' a m (hg a m h), List.forall_mem_cons.mpr ⟨⟨n, hg' _ _ hn⟩, hall⟩⟩

theorem lookup_depths (h : t ∈ rows) : ∃ n, (depths rows).lookup t.id = some n ∧
    (Tame (Waits rows) t.id → Longest (Waits rows) t.id n) := by
  have hw : Next (waiting rows) = Waits rows := by
    ext a b
    exact next_waiting
  have hr : Right (waiting rows) ∅ := fun a n hn => by cases hn
  obtain ⟨hlast, _, hall⟩ := foldl_depth_right rows hr
  obtain ⟨n, hn⟩ := hall t h
  refine ⟨n, ?_, fun ht => hw ▸ hlast _ n hn (hw ▸ ht)⟩
  have hm : t.id ∈ rows.map Task.id := List.mem_map_of_mem h
  have hl := KeyTable.lookup_ofList_map (f := fun id => ((rows.foldl (fun found task =>
    (depth (waiting rows) task.id found [] List.not_mem_nil).2) ∅).lookup id).getD 0) hm
  rw [List.map_map, hn] at hl
  exact hl

-- Every task has a number. Where no cycle of two or more open tasks is reachable from it, the number is the length of
-- the longest chain from it on, in any order of the rows.
theorem depths_longest (rows : List Task) : ∀ t ∈ rows, (∃ n, (depths rows).lookup t.id = some n) ∧
    (Tame (Waits rows) t.id → ∃ n, Longest (Waits rows) t.id n ∧
      ∀ rows', rows'.Perm rows → (depths rows').lookup t.id = some n) := by
  intro t ht
  obtain ⟨n, hn, hl⟩ := lookup_depths ht
  refine ⟨⟨n, hn⟩, fun htame => ⟨n, hl htame, fun rows' hp => ?_⟩⟩
  have hw : Waits rows' = Waits rows := by
    ext a b
    simp only [Waits, hp.mem_iff]
  obtain ⟨m, hm, hl'⟩ := lookup_depths (hp.mem_iff.mpr ht)
  rw [hw] at hl'
  rw [hm, (hl' htame).unique (hl htame)]

def chained : List Task :=
  [⟨"a", "open", none⟩, ⟨"b", "open", some ["a"]⟩]

theorem depths_longest_chained : ∃ n, Longest (Waits chained) "a" n ∧
    ∀ rows', rows'.Perm chained → (depths rows').lookup "a" = some n := by
  refine (depths_longest chained ⟨"a", "open", none⟩ List.mem_cons_self).right fun b _ hb => ?_
  have hw : ∀ a b, Waits chained a b → a = "a" ∧ b = "b" := by
    rintro a b ⟨_, t, ht, rfl, _, hd⟩
    simp only [chained, List.mem_cons, List.not_mem_nil, or_false] at ht
    obtain rfl | rfl := ht
    · cases hd
    · exact ⟨List.mem_singleton.mp hd, rfl⟩
  obtain ⟨c, hbc, _⟩ := TransGen.head'_iff.mp hb
  obtain ⟨d, _, hdb⟩ := TransGen.tail'_iff.mp hb
  have hne := (hw _ _ hbc).left.symm.trans (hw _ _ hdb).right
  exact absurd hne (by decide)

-- Two tasks that wait on each other: the first row has the longer chain.
def cyclic : List Task :=
  [⟨"a", "open", some ["b"]⟩, ⟨"b", "open", some ["a"]⟩]

theorem depth_cycle {waiting : KeyTable String (List String)} (ha : waiting.lookup a = some [b])
    (hb : waiting.lookup b = some [a]) (hne : a ≠ b) :
    depth waiting a ∅ [] List.not_mem_nil = (1, ((∅ : KeyTable String ℕ).insert b 0).insert a 1) := by
  have hbs : b ∉ [a] := by simpa using hne.symm
  have hc : chains waiting [a] ∅ [b, a] = ([], ∅) := by
    rw [chains, dif_pos (by simp), chains]
  have hd : depth waiting b ∅ [a] hbs = (0, (∅ : KeyTable String ℕ).insert b 0) := by
    rw [depth_waited rfl hb, hc]
    rfl
  have hc' : chains waiting [b] ∅ [a] = ([1], (∅ : KeyTable String ℕ).insert b 0) := by
    rw [chains, dif_neg hbs, hd]
    simp only [chains]
  rw [depth_waited rfl ha, hc']
  rfl

theorem depths_pair {t t' : Task} (hne : t.id ≠ t'.id) (ht : (waiting [t, t']).lookup t.id = some [t'.id])
    (ht' : (waiting [t, t']).lookup t'.id = some [t.id]) :
    (depths [t, t']).lookup t.id = some 1 ∧ (depths [t, t']).lookup t'.id = some 0 := by
  have hl : (((∅ : KeyTable String ℕ).insert t'.id 0).insert t.id 1).lookup t'.id = some 0 := by
    rw [AList.lookup_insert_ne hne.symm, AList.lookup_insert]
  have hd : depths [t, t'] = .ofList [(t.id, 1), (t'.id, 0)] := by
    simp only [depths, List.foldl_cons, List.foldl_nil, depth_cycle ht ht' hne, depth_known hl, List.map_cons,
      List.map_nil, AList.lookup_insert, hl, Option.getD_some]
  have hn : ([(t.id, 1), (t'.id, 0)].map Prod.fst).Nodup := by simpa using hne
  rw [hd, KeyTable.lookup_ofList hn, KeyTable.lookup_ofList hn]
  simp [List.lookup_cons, beq_eq_false_iff_ne.mpr hne.symm]

theorem depths_of_cycle : (depths cyclic).lookup "a" = some 1 ∧ (depths cyclic.reverse).lookup "a" = some 0 :=
  ⟨(depths_pair (by decide) (by decide) (by decide)).left, (depths_pair (by decide) (by decide) (by decide)).right⟩

end Rows

end ClaimOrder

-- A focus admits exactly what the open focused work waits on, and the answer that is kept is right as long as nothing but
-- the states of the tasks changes under it.

namespace Focus

open Relation Run

variable {doc : Doc} {graph : Graph} {task : Task} {id dep : String}

-- An open task that a freeze reaches before any focus does.
def Cold (doc : Doc) (graph : Graph) (id : String) : Prop :=
  ∃ task ∈ doc.tasks, task.state = some "open" ∧ frozen task doc.freezes (ancestry task graph) ∧ task.id = id

-- A dependency, a task that it is parked on, or a task of a phase that its phase waits on.
def WaitsOn (doc : Doc) (task : Task) (dep : String) : Prop :=
  dep ∈ task.dependsOn ∨ dep ∈ task.parkedOn ∨
    ∃ phase ∈ after doc task.phase, ∃ other ∈ doc.tasks, other.phase = some phase ∧ other.id = dep

def Waits (doc : Doc) (id dep : String) : Prop :=
  ∃ task, row doc id = some task ∧ WaitsOn doc task dep

def WaitsUndone (doc : Doc) (id dep : String) : Prop :=
  ∃ task, row doc id = some task ∧ task.state ≠ some "done" ∧ WaitsOn doc task dep

-- Work under a focus that is not done and can still run.
def Starts (doc : Doc) (graph : Graph) (id : String) : Prop :=
  ∃ task ∈ doc.tasks, task.state ≠ some "done" ∧ ¬ task.outOfScope ∧
    (∃ record ∈ doc.freezes, record.verb = "focus" ∧ covers record.target task (ancestry task graph)) ∧
    (¬ ∃ c, Cold doc graph c ∧ ReflTransGen (WaitsUndone doc) task.id c) ∧ task.id = id

def WaitsWarm (doc : Doc) (graph : Graph) (id dep : String) : Prop :=
  Waits doc id dep ∧ ¬ Cold doc graph dep

-- The answer for a document: what the focused work reaches short of frozen work, and none without any such work.
structure Admits (doc : Doc) (graph : Graph) (found : Option (Finset String)) : Prop where
  none_iff : found = none ↔ ¬ ∃ id, Starts doc graph id
  mem_iff  : ∀ ids, found = some ids → ∀ id, id ∈ ids ↔
    ∃ start, Starts doc graph start ∧ ReflTransGen (WaitsWarm doc graph) start id

section Relations

theorem mem_waitsOn : dep ∈ waitsOn doc task ↔ WaitsOn doc task dep := by
  simp only [waitsOn, WaitsOn, members, List.mem_append, List.mem_flatMap, List.mem_map, List.mem_filter,
    decide_eq_true_eq, and_assoc, or_assoc]

theorem edge_waits {free : Task → Bool} : (waits doc free).Edge id dep ↔
    ∃ task, row doc id = some task ∧ ¬ free task ∧ WaitsOn doc task dep := by
  rw [TargetGraph.Edge, waits]
  cases hr : row doc id with
  | none      => simp [hr]
  | some task => cases hf : free task <;> simp [hr, hf, mem_waitsOn]

theorem frozen_record (h : frozen task doc.freezes (ancestry task graph)) : doc.freezes.any (·.verb = "freeze") := by
  by_contra hn
  have he : doc.freezes.filter (·.verb = "freeze") = [] := by
    rw [List.filter_eq_nil_iff]
    exact fun r hr hv => hn (List.any_eq_true.mpr ⟨r, hr, hv⟩)
  simp [frozen, nearest, he] at h

theorem mem_cold : id ∈ cold doc graph ↔ Cold doc graph id := by
  have hm : id ∈ (doc.tasks.filter fun t => t.state = some "open" ∧
      frozen t doc.freezes (ancestry t graph)).map (·.id) ↔ Cold doc graph id := by
    simp only [Cold, List.mem_map, List.mem_filter, decide_eq_true_eq, and_assoc]
  rw [cold]
  by_cases h : doc.freezes.any (·.verb = "freeze")
  case pos => rw [if_pos h, hm]
  case neg =>
    rw [if_neg h]
    constructor
    case mp => exact fun hi => absurd hi List.not_mem_nil
    case mpr =>
      rintro ⟨task, _, _, hf, _⟩
      exact absurd (frozen_record hf) h

theorem stuck_iff (h : id ∈ ids doc) :
    stuck doc graph id h ↔ ∃ c, Cold doc graph c ∧ ReflTransGen (WaitsUndone doc) id c := by
  have hr : (waits doc (·.state = some "done")).Free (fun _ => false) = WaitsUndone doc := by
    funext a b
    simp [TargetGraph.Free, edge_waits, WaitsUndone]
  have hm : ∀ c, c ∈ ((waits doc (·.state = some "done")).reach (fun _ => false) id h ∅).val ↔
      ReflTransGen (WaitsUndone doc) id c := by
    intro c
    refine TargetGraph.mem_reach.trans ?_
    rw [hr]
    simp
  rw [stuck, decide_eq_true_eq, ← Finset.nonempty_iff_ne_empty, Finset.Nonempty]
  simp only [Finset.mem_inter, hm, List.mem_toFinset, mem_cold]
  exact exists_congr fun c => and_comm

theorem openFocus_iff : openFocus task (focus doc) graph ↔ task.state ≠ some "done" ∧ ¬ task.outOfScope ∧
    ∃ record ∈ doc.freezes, record.verb = "focus" ∧ covers record.target task (ancestry task graph) := by
  simp only [openFocus, focus, decide_eq_true_eq, List.any_eq_true, List.mem_map, List.mem_filter]
  grind

theorem mem_queue : id ∈ (queue doc graph).map Subtype.val ↔ Starts doc graph id := by
  simp only [queue, List.map_map, List.mem_map, List.mem_filter, List.mem_attach, decide_eq_true_eq, stuck_iff,
    openFocus_iff, Function.comp_apply, Subtype.exists, true_and, Starts]
  grind

-- Focused work that can still run is not frozen itself.
theorem Starts.not_cold (h : Starts doc graph id) : ¬ Cold doc graph id := by
  obtain ⟨task, _, _, _, _, hn, rfl⟩ := h
  exact fun hc => hn ⟨task.id, hc, .refl⟩

theorem focus_ne_nil (h : Starts doc graph id) : focus doc ≠ [] := by
  obtain ⟨task, _, _, _, ⟨record, hr, hv, _⟩, _⟩ := h
  exact List.ne_nil_of_mem (List.mem_map_of_mem (List.mem_filter.mpr ⟨hr, by simpa using hv⟩))

-- What the code walks over from the queue.
def seen (doc : Doc) (graph : Graph) : Finset String :=
  ((waits doc fun _ => false).reachAll (· ∈ cold doc graph) ((queue doc graph).map Subtype.val) queue_ids ∅).val

theorem mem_seen : id ∈ seen doc graph ↔
    ∃ start, Starts doc graph start ∧ ReflTransGen (WaitsWarm doc graph) start id := by
  have hf : (waits doc fun _ => false).Free (· ∈ cold doc graph) = WaitsWarm doc graph := by
    funext a b
    simp [TargetGraph.Free, edge_waits, WaitsWarm, Waits, mem_cold]
  refine TargetGraph.mem_reachAll.trans (exists_congr fun start => ?_)
  rw [hf, mem_queue, decide_eq_true_eq, mem_cold]
  constructor
  case mp  => exact fun h => ⟨h.left, h.right.right⟩
  case mpr => exact fun h => ⟨h.left, h.left.not_cold, h.right⟩

theorem seen_eq_empty : seen doc graph = ∅ ↔ ¬ ∃ id, Starts doc graph id := by
  rw [Finset.eq_empty_iff_forall_notMem]
  constructor
  case mp =>
    rintro h ⟨id, hs⟩
    exact h id (mem_seen.mpr ⟨id, hs, .refl⟩)
  case mpr =>
    intro h id hm
    obtain ⟨start, hs, _⟩ := mem_seen.mp hm
    exact h ⟨start, hs⟩

theorem admitSet_eq : admitSet doc graph = if focus doc = [] ∨ seen doc graph = ∅ then none else some (seen doc graph) := by
  rw [admitSet]
  by_cases hf : focus doc = []
  case pos => simp [hf]
  case neg => simp [hf, seen]

theorem admitSet_admits : Admits doc graph (admitSet doc graph) where
  none_iff := by
    rw [admitSet_eq, ← seen_eq_empty]
    by_cases hf : focus doc = []
    case pos =>
      have hs : seen doc graph = ∅ := by
        rw [seen_eq_empty]
        rintro ⟨id, h⟩
        exact focus_ne_nil h hf
      simp [hs]
    case neg => simp [hf]
  mem_iff ids h id := by
    rw [admitSet_eq] at h
    by_cases hc : focus doc = [] ∨ seen doc graph = ∅
    case pos =>
      rw [if_pos hc] at h
      cases h
    case neg =>
      rw [if_neg hc] at h
      cases h
      exact mem_seen

end Relations

section Kept

variable {s : State} {e : Event} {es : List Event} {kept : Admitted} {memory : Memory} {d g : ℕ}
variable {tasks : List Task} {states : List (Option String)}

def withStates (states : List (Option String)) (tasks : List Task) : List Task :=
  tasks.zipWith (fun task state => { task with state := state }) states

def stateless (task : Task) : Task :=
  { task with state := none }

theorem withStates_self : withStates (tasks.map (·.state)) tasks = tasks := by
  induction tasks
  case nil             => rfl
  case cons _ tasks hi => rw [List.map_cons, withStates, List.zipWith_cons_cons, ← withStates, hi]

-- Tasks that differ in their states only are the same once they are given the same states.
theorem withStates_congr {other : List Task} (h : other.map stateless = tasks.map stateless) :
    withStates states other = withStates states tasks := by
  induction tasks generalizing other states
  case nil => rw [List.map_eq_nil_iff.mp h]
  case cons task tasks hi =>
    cases other with
    | nil => simp at h
    | cons task' other =>
      rw [List.map_cons, List.map_cons, List.cons.injEq] at h
      cases states with
      | nil => rfl
      | cons state states =>
        have ht : { task' with state := state } = { task with state := state } := by
          have hs := congrArg (fun t : Task => { t with state := state }) h.left
          exact hs
        rw [withStates, withStates, List.zipWith_cons_cons, List.zipWith_cons_cons, ht, ← withStates, ← withStates,
          hi h.right]

-- The document that an answer was for, in the objects as they are now.
def Memory.past (m : Memory) (kept : Admitted) : Doc where
  tasks   := withStates kept.states (kept.tasks.elim [] m.tasks)
  freezes := kept.freezes.elim [] m.freezes
  phases  := (m.docs kept.doc).phases

def Sound (s : State) : Prop :=
  ∀ kept, s.kept = some kept → kept.found = admitSet (s.memory.past kept) (s.memory.graphs kept.graph)

-- A change that leaves what the kept answer was found from as it was, but for the states of tasks.
def OnlyStates (s : State) : Event → Prop
  | .call _ _      => True
  | .change memory => ∀ kept, s.kept = some kept →
    (kept.tasks.elim [] memory.tasks).map stateless = (kept.tasks.elim [] s.memory.tasks).map stateless ∧
    kept.freezes.elim [] memory.freezes = kept.freezes.elim [] s.memory.freezes ∧
    (memory.docs kept.doc).phases = (s.memory.docs kept.doc).phases ∧
    memory.graphs kept.graph = s.memory.graphs kept.graph

theorem past_view (h : s.Hits d g kept) : s.memory.past kept = s.memory.view d := by
  obtain ⟨hs, hd, ht, _, hf, _⟩ := h
  have hw : withStates (s.states d) (s.memory.tasksOf d) = s.memory.tasksOf d := withStates_self
  rw [Memory.past, Memory.view, hs, hd, ht, hf, ← Memory.tasksOf, hw]

theorem admitted_of_hits (hk : s.kept = some kept) (h : s.Hits d g kept) : s.admitted d g = (kept.found, s) := by
  simp [State.admitted, hk, Option.filter, h]

theorem admitted_cases : (∃ kept, s.kept = some kept ∧ s.Hits d g kept ∧ s.admitted d g = (kept.found, s)) ∨
    s.admitted d g = (s.fresh d g, { s with kept := some (s.keep d g) }) := by
  cases hk : s.kept with
  | none      => exact .inr (by simp [State.admitted, hk])
  | some kept =>
    by_cases h : s.Hits d g kept
    case pos => exact .inl ⟨kept, rfl, h, admitted_of_hits hk h⟩
    case neg => exact .inr (by simp [State.admitted, hk, Option.filter, h])

theorem admitted_eq_fresh (h : Sound s) : (s.admitted d g).1 = s.fresh d g := by
  obtain ⟨kept, hk, hh, he⟩ | he := admitted_cases (s := s) (d := d) (g := g)
  case inr => rw [he]
  case inl =>
    rw [he, h kept hk, past_view hh, hh.right.right.right.right.right]
    rfl

theorem sound_admitted (h : Sound s) : Sound (s.admitted d g).2 := by
  obtain ⟨kept, hk, hh, he⟩ | he := admitted_cases (s := s) (d := d) (g := g)
  case inl =>
    rw [he]
    exact h
  case inr =>
    rw [he]
    intro kept hk
    cases hk
    have hw : withStates (s.states d) (s.memory.tasksOf d) = s.memory.tasksOf d := withStates_self
    have hp : s.memory.past (s.keep d g) = s.memory.view d := by
      change Doc.mk (withStates (s.states d) (s.memory.tasksOf d)) _ _ = _
      rw [hw]
      rfl
    change s.fresh d g = admitSet (s.memory.past (s.keep d g)) _
    rw [hp]
    rfl

theorem sound_step (h : Sound s) (ho : OnlyStates s e) : Sound (step s e) := by
  cases e with
  | call doc graph => exact sound_admitted h
  | change memory  =>
    intro kept hk
    obtain ⟨ht, hf, hp, hg⟩ := ho kept hk
    have he : memory.past kept = s.memory.past kept := by
      rw [Memory.past, Memory.past, withStates_congr ht, hf, hp]
    change kept.found = admitSet (memory.past kept) (memory.graphs kept.graph)
    rw [he, hg]
    exact h kept hk

-- Every answer of a run is the one for the document as it is then.
theorem admitted_fresh (memory : Memory) (es : List Event) (h : Along step OnlyStates ⟨memory, none⟩ es) (d g : ℕ) :
    ((run step ⟨memory, none⟩ es).admitted d g).1 = (run step ⟨memory, none⟩ es).fresh d g ∧
    Admits ((run step ⟨memory, none⟩ es).memory.view d) ((run step ⟨memory, none⟩ es).memory.graphs g)
      ((run step ⟨memory, none⟩ es).admitted d g).1 := by
  have hs : Sound (run step ⟨memory, none⟩ es) :=
    h.invariant (fun _ _ h ho => sound_step h ho) fun kept hk => by cases hk
  rw [admitted_eq_fresh hs]
  exact ⟨rfl, admitSet_admits⟩

end Kept

section OneTask

-- One task under a focus, in a state and in or out of scope.
def oneTask (state : String) (outOfScope : Bool) : Memory where
  docs _    := ⟨some 0, some 0, []⟩
  tasks _   := [⟨"a", some state, none, none, none, none, none, outOfScope, [], []⟩]
  freezes _ := [⟨"focus", "tasks/a"⟩]
  graphs _  := ∅

theorem admitted_fresh_done :
    ((run step ⟨oneTask "open" false, none⟩ [.call 0 0, .change (oneTask "done" false)]).admitted 0 0).1 =
      (run step ⟨oneTask "open" false, none⟩ [.call 0 0, .change (oneTask "done" false)]).fresh 0 0 :=
  (admitted_fresh (oneTask "open" false) [.call 0 0, .change (oneTask "done" false)]
    ⟨trivial, fun kept _ => ⟨by cases kept.tasks <;> rfl, rfl, rfl, rfl⟩, trivial⟩ 0 0).left

theorem starts_oneTask : Starts ((oneTask "open" false).view 0) ∅ "a" := by
  refine ⟨_, List.mem_cons_self, by decide, by decide, ⟨_, List.mem_cons_self, rfl, by decide⟩, ?_, rfl⟩
  rintro ⟨c, ⟨task, ht, _, hf, _⟩, _⟩
  rw [List.mem_singleton.mp ht] at hf
  revert hf
  decide

theorem not_starts_oneTask : ¬ ∃ id, Starts ((oneTask "open" true).view 0) ∅ id := by
  rintro ⟨id, task, ht, _, ho, _⟩
  rw [List.mem_singleton.mp ht] at ho
  exact ho rfl

-- The answer from before the task went out of scope is given again.
theorem admitted_stale :
    ((run step ⟨oneTask "open" false, none⟩ [.call 0 0, .change (oneTask "open" true)]).admitted 0 0).1 ≠
      (run step ⟨oneTask "open" false, none⟩ [.call 0 0, .change (oneTask "open" true)]).fresh 0 0 := by
  have hh : (run step ⟨oneTask "open" false, none⟩ [.call 0 0, .change (oneTask "open" true)]).Hits 0 0
      ⟨0, some 0, some 0, 0, [some "open"], admitSet ((oneTask "open" false).view 0) ∅⟩ :=
    ⟨rfl, rfl, rfl, by decide, rfl, rfl⟩
  have ha : admitSet ((oneTask "open" false).view 0) ∅ ≠ none := fun h => admitSet_admits.none_iff.mp h ⟨"a", starts_oneTask⟩
  have hn : admitSet ((oneTask "open" true).view 0) ∅ = none := admitSet_admits.none_iff.mpr not_starts_oneTask
  rw [admitted_of_hits rfl hh]
  exact fun he => ha (he.trans hn)

end OneTask

end Focus
