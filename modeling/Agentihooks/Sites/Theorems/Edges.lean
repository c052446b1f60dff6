import Mathlib.Data.List.MinMax
import Mathlib.Data.List.Perm.Basic
import Mathlib.Logic.Relation
import Mathlib.Data.List.Nodup
import Mathlib.Data.Prod.Lex
import Mathlib.Order.Lattice.Nat
import Agentihooks.Sites.Registry

-- The steps that the registry accepts can be ordered, and which of them are late.

namespace Sites

variable {steps placed pending : List Step} {s : Step} {x y : String} {turns : ℕ}

-- The step of the name `x` needs the one of the name `y`.
def Needs (steps : List Step) (x y : String) : Prop :=
  ∃ s ∈ steps, s.name = x ∧ y ∈ s.needs

theorem mem_names : x ∈ names steps ↔ ∃ s ∈ steps, s.name = x := by
  simp [names]

theorem eq_of_name {t : Step} (hn : (steps.map Step.name).Nodup) (hs : s ∈ steps) (ht : t ∈ steps) (h : s.name = t.name) :
    s = t :=
  List.inj_on_of_nodup_map hn hs ht h

-- What an accepted list of steps is: the names differ, the needs are known, and some rank goes down along them.
structure Ranked {α : Type} [LinearOrder α] (rank : String → α) (steps : List Step) : Prop where
  nodup : (steps.map Step.name).Nodup
  known : ∀ s ∈ steps, s.needs ⊆ names steps
  lt    : ∀ s ∈ steps, ∀ need ∈ s.needs, rank need < rank s.name

section Waves

theorem wavesFrom_rank (pending : List Step) (completed : Finset String) (hlen : pending.length ≤ turns)
    (hn : (pending.map Step.name).Nodup) (hd : ∀ s ∈ pending, s.name ∉ completed)
    (h : (wavesFrom turns pending completed).isSome) :
    ∃ rank : String → ℕ, ∀ s ∈ pending, ∀ need ∈ s.needs, need ∉ completed → rank need < rank s.name := by
  induction turns generalizing pending completed
  case zero          =>
    obtain rfl := List.length_eq_zero_iff.mp (Nat.le_zero.mp hlen)
    exact ⟨fun _ => 0, by simp⟩
  case succ turns hi =>
    rw [wavesFrom] at h
    split at h
    case isTrue hp  => exact ⟨fun _ => 0, by simp [hp]⟩
    case isFalse hp =>
      extract_lets ready completed' at h
      split at h
      case isTrue     => cases h
      case isFalse hr =>
        have hready {s : Step} (hs : s ∈ ready) : s ∈ pending ∧ s.needs ⊆ completed :=
          ⟨(List.mem_filter.mp hs).left, of_decide_eq_true (List.mem_filter.mp hs).right⟩
        have hleft {s : Step} : s ∈ pending.filter (fun s => s.name ∉ completed') ↔ s ∈ pending ∧ s.name ∉ completed' := by
          simp
        have hlt : (pending.filter fun s => s.name ∉ completed').length < pending.length := by
          obtain ⟨s, hs⟩ := List.exists_mem_of_ne_nil ready hr
          refine List.length_filter_lt_length_iff_exists.mpr ⟨s, (hready hs).left, ?_⟩
          have : s.name ∈ completed' := Finset.mem_union_right _ (mem_names.mpr ⟨s, hs, rfl⟩)
          simpa using this
        obtain ⟨rank, hrank⟩ := hi (pending.filter fun s => s.name ∉ completed') completed' (by omega)
          (hn.sublist (List.filter_sublist.map Step.name)) (fun s hs => (hleft.mp hs).right) (by simpa using h)
        refine ⟨fun n => if n ∈ names ready then 0 else rank n + 1, fun s hs need hneed hc => ?_⟩
        have hs' : s.name ∉ names ready := by
          intro hm
          obtain ⟨t, ht, hname⟩ := mem_names.mp hm
          obtain rfl := eq_of_name hn (hready ht).left hs hname
          exact hc ((hready ht).right hneed)
        change (if need ∈ names ready then 0 else rank need + 1) < if s.name ∈ names ready then 0 else rank s.name + 1
        rw [if_neg hs']
        by_cases hm : need ∈ names ready
        case pos => simp [hm]
        case neg =>
          rw [if_neg hm]
          have hc' {n : String} (hn : n ∉ completed) (hm : n ∉ names ready) : n ∉ completed' := by
            simp [completed', hn, hm]
          exact Nat.succ_lt_succ (hrank s (hleft.mpr ⟨hs, hc' (hd s hs) hs'⟩) need hneed (hc' hc hm))

theorem waves_ranked (h : (waves steps).isSome) : ∃ rank : String → ℕ, Ranked rank steps := by
  unfold waves at h
  split at h
  case isTrue     => cases h
  case isFalse hn =>
    split at h
    case isTrue     => cases h
    case isFalse hk =>
      obtain ⟨rank, hrank⟩ := wavesFrom_rank steps ∅ le_rfl (not_not.mp hn) (by simp) h
      refine ⟨rank, not_not.mp hn, fun s hs => ?_, fun s hs need hneed => hrank s hs need hneed (by simp)⟩
      by_contra hsub
      exact hk ⟨s, hs, hsub⟩

end Waves

section Ordered

-- Each step is placed after those among the others that it needs.
def Follows (among : Finset String) : Finset String → List Step → Prop
  | _, []            => True
  | done, s :: steps => s.needs ∩ among ⊆ done ∧ Follows among (insert s.name done) steps

theorem orderedFrom_some {among done : Finset String} (hlen : pending.length = turns)
    (h : orderedFrom among turns pending done = some placed) : placed.Perm pending ∧ Follows among done placed := by
  induction turns generalizing pending done placed
  case zero          =>
    obtain rfl := List.length_eq_zero_iff.mp hlen
    cases h
    exact ⟨.refl _, trivial⟩
  case succ turns hi =>
    rw [orderedFrom] at h
    split at h
    case h_2          => cases h
    case h_1 ready hf =>
      obtain ⟨rest, hrest, rfl⟩ := Option.map_eq_some_iff.mp h
      have hm := List.mem_of_find?_eq_some hf
      have hready : ready.needs ∩ among ⊆ done := by simpa using List.find?_some hf
      obtain ⟨hperm, hfollows⟩ := hi (by rw [List.length_erase_of_mem hm]; omega) hrest
      exact ⟨(hperm.cons ready).trans (List.perm_cons_erase hm).symm, hready, hfollows⟩

theorem ordered_some (h : ordered steps = some placed) : placed.Perm steps ∧ Follows (names steps) ∅ placed :=
  orderedFrom_some rfl h

-- Among the steps that are left one is ready: the least of them.
theorem orderedFrom_isSome {α : Type} [LinearOrder α] {rank : String → α} {among done : Finset String}
    (hlen : pending.length = turns) (hamong : ∀ n ∈ among, n ∈ done ∨ n ∈ names pending)
    (hlt : ∀ s ∈ pending, ∀ need ∈ s.needs, rank need < rank s.name) : (orderedFrom among turns pending done).isSome := by
  induction turns generalizing pending done
  case zero          => rfl
  case succ turns hi =>
    rw [orderedFrom]
    split
    case h_1 ready hf =>
      have hm := List.mem_of_find?_eq_some hf
      rw [Option.isSome_map]
      refine hi (by rw [List.length_erase_of_mem hm]; omega) (fun n hn => ?_) fun s hs => hlt s (List.mem_of_mem_erase hs)
      obtain hd | hp := hamong n hn
      · exact .inl (Finset.mem_insert_of_mem hd)
      · obtain ⟨s, hs, rfl⟩ := mem_names.mp hp
        obtain rfl | hs := List.mem_cons.mp ((List.perm_cons_erase hm).mem_iff.mp hs)
        · exact .inl (Finset.mem_insert_self _ _)
        · exact .inr (mem_names.mpr ⟨s, hs, rfl⟩)
    case h_2 hf =>
      obtain ⟨least, hl⟩ := Option.ne_none_iff_exists'.mp fun hn : pending.argmin (fun s => rank s.name) = none => by
        rw [List.argmin_eq_none.mp hn] at hlen
        cases hlen
      have hm : least ∈ pending := List.argmin_mem hl
      have hnot : ¬ least.needs ∩ among ⊆ done := by simpa using List.find?_eq_none.mp hf least hm
      refine absurd (fun need hneed => ?_) hnot
      obtain ⟨hneed, hn⟩ := Finset.mem_inter.mp hneed
      obtain hd | hp := hamong need hn
      · exact hd
      · obtain ⟨s, hs, rfl⟩ := mem_names.mp hp
        have hle : rank least.name ≤ rank s.name := List.le_of_mem_argmin (f := fun s : Step => rank s.name) hs hl
        exact absurd (hlt least hm s.name hneed) (not_lt.mpr hle)

theorem Ranked.ordered {α : Type} [LinearOrder α] {rank : String → α} (h : Ranked rank steps) : (ordered steps).isSome :=
  orderedFrom_isSome rfl (fun _ hn => .inr hn) h.lt

-- No step needs itself, directly or through others.
theorem Ranked.irrefl {α : Type} [LinearOrder α] {rank : String → α} (h : Ranked rank steps) (x : String) :
    ¬ Relation.TransGen (Needs steps) x x := by
  have hlt {x y : String} (hxy : Relation.TransGen (Needs steps) x y) : rank y < rank x := by
    induction hxy with
    | single hn     =>
      obtain ⟨s, hs, rfl, hneed⟩ := hn
      exact h.lt s hs _ hneed
    | tail _ hn hlt =>
      obtain ⟨s, hs, rfl, hneed⟩ := hn
      exact (h.lt s hs _ hneed).trans hlt
  exact fun hx => (hlt hx).false

end Ordered

section Late

-- A step of the slow lane, or one that needs such a step.
def Late (steps : List Step) (x : String) : Prop :=
  ∃ y, Relation.ReflTransGen (Needs steps) x y ∧ ∃ s ∈ steps, s.name = y ∧ s.lane = slowLane

-- The turn of the loop for a step.
def lateStep (late : Finset String) (step : Step) : Finset String :=
  if step.lane = slowLane ∨ (step.needs ∩ late).Nonempty then insert step.name late else late

theorem mem_lateStep {late : Finset String} :
    x ∈ lateStep late s ↔ x ∈ late ∨ x = s.name ∧ (s.lane = slowLane ∨ (s.needs ∩ late).Nonempty) := by
  unfold lateStep
  split
  case isTrue h  => simp [h, or_comm]
  case isFalse h => simp [h]

theorem mem_foldl_late (late : Finset String) {done among : Finset String} (hf : Follows among done placed)
    (hk : ∀ s ∈ placed, s.needs ⊆ among) (hn : (placed.map Step.name).Nodup) (hd : ∀ s ∈ placed, s.name ∉ done)
    (hl : late ⊆ done) :
    (∀ x ∈ done, x ∈ placed.foldl lateStep late ↔ x ∈ late) ∧
      ∀ s ∈ placed, s.name ∈ placed.foldl lateStep late ↔
        s.lane = slowLane ∨ (s.needs ∩ placed.foldl lateStep late).Nonempty := by
  induction placed generalizing late done
  case nil => simp
  case cons s placed hi =>
    obtain ⟨hneeds, hf⟩ := hf
    obtain ⟨hnew, hn⟩ := List.nodup_cons.mp hn
    rw [Finset.inter_eq_left.mpr (hk s List.mem_cons_self)] at hneeds
    have hl' : lateStep late s ⊆ insert s.name done := by
      intro x hx
      obtain hx | ⟨rfl, -⟩ := mem_lateStep.mp hx
      · exact Finset.mem_insert_of_mem (hl hx)
      · exact Finset.mem_insert_self _ _
    obtain ⟨hold, hrest⟩ := hi _ hf (fun t ht => hk t (List.mem_cons_of_mem _ ht)) hn (fun t ht hm => by
      obtain he | hm := Finset.mem_insert.mp hm
      · exact hnew (he ▸ List.mem_map_of_mem ht)
      · exact hd t (List.mem_cons_of_mem _ ht) hm) hl'
    have hdone {x : String} (hx : x ∈ done) : x ∈ (s :: placed).foldl lateStep late ↔ x ∈ late := by
      rw [List.foldl_cons, hold x (Finset.mem_insert_of_mem hx), mem_lateStep]
      refine or_iff_left fun hs => hd s List.mem_cons_self (hs.left ▸ hx)
    refine ⟨fun x hx => hdone hx, fun t ht => ?_⟩
    obtain rfl | ht := List.mem_cons.mp ht
    · have hinter : t.needs ∩ (t :: placed).foldl lateStep late = t.needs ∩ late := by
        ext x
        simp only [Finset.mem_inter]
        exact and_congr_right fun hx => hdone (hneeds hx)
      rw [hinter, List.foldl_cons, hold t.name (Finset.mem_insert_self _ _), mem_lateStep]
      have hlate : t.name ∉ late := fun hx => hd t List.mem_cons_self (hl hx)
      simp [hlate]
    · exact hrest t ht

theorem late_eq (steps : List Step) : late steps = (ordered steps).map fun placed => placed.foldl lateStep ∅ :=
  rfl

theorem late_of_mem_foldl {late : Finset String} (hs : ∀ s ∈ placed, s ∈ steps) (hl : ∀ x ∈ late, Late steps x) :
    ∀ x ∈ placed.foldl lateStep late, Late steps x := by
  induction placed generalizing late
  case nil => exact hl
  case cons s placed hi =>
    refine hi (fun t ht => hs t (List.mem_cons_of_mem _ ht)) fun x hx => ?_
    have hm := hs s List.mem_cons_self
    obtain hx | ⟨rfl, hslow | ⟨need, hneed⟩⟩ := mem_lateStep.mp hx
    · exact hl x hx
    · exact ⟨s.name, .refl, s, hm, rfl, hslow⟩
    · obtain ⟨hneed, hlate⟩ := Finset.mem_inter.mp hneed
      obtain ⟨y, hr, hy⟩ := hl need hlate
      exact ⟨y, .head ⟨s, hm, rfl, hneed⟩ hr, hy⟩

-- The late steps are found.
theorem Ranked.late {α : Type} [LinearOrder α] {rank : String → α} (h : Ranked rank steps) :
    ∃ found, Sites.late steps = some found ∧ ∀ x, x ∈ found ↔ Late steps x := by
  obtain ⟨placed, hp⟩ := Option.isSome_iff_exists.mp h.ordered
  obtain ⟨hperm, hfollows⟩ := ordered_some hp
  obtain ⟨-, hfix⟩ := mem_foldl_late ∅ hfollows (fun s hs => h.known s (hperm.mem_iff.mp hs))
    ((hperm.map Step.name).nodup_iff.mpr h.nodup) (by simp) (by simp)
  refine ⟨_, by rw [late_eq, hp, Option.map_some], fun x => ⟨?_, ?_⟩⟩
  case refine_1 => exact late_of_mem_foldl (fun s hs => hperm.mem_iff.mp hs) (by simp) x
  case refine_2 =>
    rintro ⟨y, hr, t, ht, rfl, hslow⟩
    induction hr using Relation.ReflTransGen.head_induction_on with
    | refl             => exact (hfix t (hperm.mem_iff.mpr ht)).mpr (.inl hslow)
    | head hn _ hlate  =>
      obtain ⟨s, hs, rfl, hneed⟩ := hn
      exact (hfix s (hperm.mem_iff.mpr hs)).mpr (.inr ⟨_, Finset.mem_inter.mpr ⟨hneed, hlate⟩⟩)

end Late

end Sites

-- The edges between the sites keep their order, and make no cycle unless the steps of other groups do.

namespace Sites

variable {steps found : List Step} {sites : List String} {joins : String → Option String} {s t : Step} {a b : String}

section Positions

-- A site comes before another.
def Before (sites : List String) (a b : String) : Prop :=
  sites.idxOf a < sites.idxOf b ∧ b ∈ sites

theorem Before.mem_left (h : Before sites a b) : a ∈ sites :=
  List.idxOf_lt_length_iff.mp (h.left.trans (List.idxOf_lt_length_iff.mpr h.right))

theorem not_before (ha : a ∈ sites) : ¬ Before sites b a ↔ sites.idxOf a ≤ sites.idxOf b := by
  simp [Before, ha]

theorem before_iff {done rest : List String} (hn : (done ++ b :: rest).Nodup) : Before (done ++ b :: rest) a b ↔ a ∈ done := by
  have hb : b ∉ done := fun hb => (List.nodup_append.mp hn).right.right b hb b List.mem_cons_self rfl
  rw [Before, and_iff_left (by simp), List.idxOf_append_of_notMem hb, List.idxOf_cons_self, Nat.add_zero]
  constructor
  case mp =>
    intro h
    by_contra ha
    rw [List.idxOf_append_of_notMem ha] at h
    omega
  case mpr =>
    intro h
    rw [List.idxOf_append_of_mem h]
    exact List.idxOf_lt_length_iff.mpr h

theorem indexOf_eq (hn : sites.Nodup) : indexOf sites a = if a ∈ sites then some (sites.idxOf a) else none := by
  unfold indexOf
  cases hf : sites.zipIdx.reverse.find? fun entry => entry.1 = a with
  | some entry =>
    have hm := List.mem_reverse.mp (List.mem_of_find?_eq_some hf)
    obtain rfl : entry.1 = a := by simpa using List.find?_some hf
    obtain ⟨hlt, he⟩ := List.getElem?_eq_some_iff.mp (List.mem_zipIdx_iff_getElem?.mp hm)
    rw [if_pos (he ▸ List.getElem_mem hlt), Option.map_some, ← he, hn.idxOf_getElem]
  | none       =>
    rw [if_neg, Option.map_none]
    intro ha
    obtain ⟨i, hi⟩ := List.mem_iff_getElem?.mp ha
    have hm : (a, i) ∈ sites.zipIdx.reverse := List.mem_reverse.mpr (List.mem_zipIdx_iff_getElem?.mpr hi)
    simpa using List.find?_eq_none.mp hf _ hm

-- The index of the site of a step.
theorem siteAt_eq (hn : sites.Nodup) (hnames : (steps.map Step.name).Nodup) (hs : s ∈ steps) :
    siteAt steps sites s.name = if s.group ∈ sites then some (sites.idxOf s.group) else none := by
  unfold siteAt
  cases hf : steps.reverse.find? fun step => step.name = s.name ∧ (indexOf sites step.group).isSome with
  | some t =>
    have hm := List.mem_reverse.mp (List.mem_of_find?_eq_some hf)
    have ht : t.name = s.name ∧ (indexOf sites t.group).isSome := by simpa using List.find?_some hf
    obtain rfl := eq_of_name hnames hm hs ht.left
    exact indexOf_eq hn
  | none   =>
    rw [if_neg, Option.bind_none]
    intro hg
    have hnot := List.find?_eq_none.mp hf s (List.mem_reverse.mpr hs)
    simp [indexOf_eq hn, hg] at hnot

theorem siteAt_some (hn : sites.Nodup) {i : ℕ} (h : siteAt steps sites a = some i) :
    ∃ s ∈ steps, s.name = a ∧ s.group ∈ sites ∧ i = sites.idxOf s.group := by
  obtain ⟨s, hf, hi⟩ := Option.bind_eq_some_iff.mp h
  have hm := List.mem_reverse.mp (List.mem_of_find?_eq_some hf)
  have hs : s.name = a ∧ (indexOf sites s.group).isSome := by simpa using List.find?_some hf
  rw [indexOf_eq hn] at hi
  split at hi
  case isTrue hg  => exact ⟨s, hm, hs.left, hg, (Option.some.inj hi).symm⟩
  case isFalse hg => cases hi

-- A need is dropped if it is on a step of a later site.
theorem later_iff (hn : sites.Nodup) (hnames : (steps.map Step.name).Nodup) (hs : s ∈ steps) {need : String} :
    later steps sites s.name need ↔ ∃ t ∈ steps, t.name = need ∧ Before sites s.group t.group := by
  unfold later
  rw [siteAt_eq hn hnames hs]
  constructor
  case mp =>
    intro h
    split at h
    case h_2 => cases h
    case h_1 i j hi hj =>
      obtain ⟨t, ht, hname, hg, rfl⟩ := siteAt_some hn hj
      split at hi
      case isFalse => cases hi
      case isTrue  =>
        obtain rfl := Option.some.inj hi
        exact ⟨t, ht, hname, of_decide_eq_true h, hg⟩
  case mpr =>
    rintro ⟨t, ht, rfl, hb⟩
    rw [siteAt_eq hn hnames ht, if_pos hb.mem_left, if_pos hb.right]
    exact decide_eq_true hb.left

end Positions

section Walks

variable {members : String → List Step}

-- What the barriers of the sites so far are, and what is kept for the next ones.
structure Walked (members : String → List Step) (joins : String → Option String) (sites done : List String) (w : Walk) :
    Prop where
  previous : ∀ a ∈ done, joins a = none → members a ≠ [] →
    ∃ c ∈ done, joins c = none ∧ (c = a ∨ Before sites a c) ∧ members c ≠ [] ∧ w.previous = members c
  earlier  : ∀ s ∈ w.previous, ∃ a ∈ done, joins a = none ∧ s ∈ members a
  held     : ∀ b, ∀ s ∈ w.held b, ∃ a ∈ done, joins a = some b ∧ s ∈ members a
  unjoined : ∀ b ∈ done, ∀ a, Before sites a b → joins a = none → members a ≠ [] →
    ∃ c, joins c = none ∧ (c = a ∨ Before sites a c) ∧ Before sites c b ∧ members c ≠ [] ∧ members c ⊆ w.barrier b
  joined   : ∀ a ∈ done, ∀ b, joins a = some b →
    (b ∈ done ∧ members a ⊆ w.barrier b) ∨ (b ∉ done ∧ members a ⊆ w.held b)
  only     : ∀ b ∈ done, ∀ s ∈ w.barrier b, ∃ a, Before sites a b ∧ (joins a = none ∨ joins a = some b) ∧ s ∈ members a

theorem walked_visit {done rest : List String} {w : Walk} (hs : sites = done ++ b :: rest) (hn : sites.Nodup)
    (hj : ∀ a ∈ sites, ∀ c, joins a = some c → Before sites a c) (h : Walked members joins sites done w) :
    Walked members joins sites (done ++ [b]) (w.visit members joins b) := by
  subst hs
  have hbefore (a : String) : Before (done ++ b :: rest) a b ↔ a ∈ done := before_iff hn
  have hb : b ∉ done := fun hb => (List.nodup_append.mp hn).right.right b hb b List.mem_cons_self rfl
  have hbarrier : (w.visit members joins b).barrier = Function.update w.barrier b (w.previous ++ w.held b) := by
    unfold Walk.visit
    extract_lets barrier held
    split <;> rfl
  have hne {c : String} (hc : c ∈ done) : c ≠ b := fun he => hb (he ▸ hc)
  have hmem {c : String} : c ∈ done ++ [b] ↔ c ∈ done ∨ c = b := by simp
  have hbehind {c : String} (hc : c ∈ done) : c ∈ done ++ [b] := hmem.mpr (.inl hc)
  have hsites {c : String} (hc : c ∈ done ++ [b]) : c ∈ done ++ b :: rest := by
    obtain hc | rfl := hmem.mp hc
    · exact List.mem_append_left _ hc
    · simp
  refine ⟨?_, ?_, ?_, ?_, ?_, ?_⟩
  case refine_1 =>
    intro a ha hja hm
    unfold Walk.visit
    extract_lets barrier held
    split
    case h_1 joined hjb =>
      obtain ha | rfl := hmem.mp ha
      · obtain ⟨c, hc, hjc, hac, hmc, he⟩ := h.previous a ha hja hm
        exact ⟨c, hbehind hc, hjc, hac, hmc, he⟩
      · exact absurd (hja.symm.trans hjb) (by simp)
    case h_2 hjb =>
      by_cases hmb : members b = []
      case pos =>
        obtain ha | rfl := hmem.mp ha
        · obtain ⟨c, hc, hjc, hac, hmc, he⟩ := h.previous a ha hja hm
          exact ⟨c, hbehind hc, hjc, hac, hmc, by rw [if_pos hmb, he]⟩
        · exact absurd hmb hm
      case neg =>
        refine ⟨b, hmem.mpr (.inr rfl), hjb, ?_, hmb, if_neg hmb⟩
        obtain ha | rfl := hmem.mp ha
        · exact .inr ((hbefore a).mpr ha)
        · exact .inl rfl
  case refine_2 =>
    intro s hs
    unfold Walk.visit at hs
    extract_lets barrier held at hs
    have hold (hs : s ∈ w.previous) : ∃ a ∈ done ++ [b], joins a = none ∧ s ∈ members a := by
      obtain ⟨a, ha, hja, hsa⟩ := h.earlier s hs
      exact ⟨a, hbehind ha, hja, hsa⟩
    split at hs
    case h_1 => exact hold hs
    case h_2 hjb =>
      by_cases hmb : members b = []
      case pos => exact hold (by simpa [hmb] using hs)
      case neg => exact ⟨b, hmem.mpr (.inr rfl), hjb, by simpa [hmb] using hs⟩
  case refine_3 =>
    intro c s hs
    have hold (hs : s ∈ Function.update w.held b [] c) : ∃ a ∈ done ++ [b], joins a = some c ∧ s ∈ members a := by
      by_cases hc : c = b
      case pos =>
        subst hc
        simp at hs
      case neg =>
        rw [Function.update_of_ne hc] at hs
        obtain ⟨a, ha, hja, hsa⟩ := h.held c s hs
        exact ⟨a, hbehind ha, hja, hsa⟩
    unfold Walk.visit at hs
    extract_lets barrier held at hs
    split at hs
    case h_2 => exact hold hs
    case h_1 joined hjb =>
      by_cases hc : c = joined
      case neg =>
        refine hold ?_
        simpa [Function.update_of_ne hc] using hs
      case pos =>
        subst hc
        simp only [Function.update_self, List.mem_append] at hs
        obtain hs | hs := hs
        · exact hold hs
        · exact ⟨b, hmem.mpr (.inr rfl), hjb, hs⟩
  case refine_4 =>
    intro c hc a hac hja hm
    rw [hbarrier]
    obtain hc | rfl := hmem.mp hc
    · rw [Function.update_of_ne (hne hc)]
      exact h.unjoined c hc a hac hja hm
    · obtain ⟨d, hd, hjd, had, hmd, he⟩ := h.previous a ((hbefore a).mp hac) hja hm
      refine ⟨d, hjd, had, (hbefore d).mpr hd, hmd, ?_⟩
      rw [Function.update_self, he]
      exact List.subset_append_left _ _
  case refine_5 =>
    intro a ha c hjc
    have hac := hj a (hsites ha) c hjc
    have hheld {d : String} (hd : d ≠ b) : w.held d ⊆ (w.visit members joins b).held d := by
      unfold Walk.visit
      extract_lets barrier held
      split
      case h_2 =>
        simp only [held, Function.update_of_ne hd]
        exact List.Subset.refl _
      case h_1 joined _ =>
        by_cases he : d = joined
        case pos =>
          subst he
          simp only [Function.update_self, held, Function.update_of_ne hd]
          exact List.subset_append_left _ _
        case neg =>
          simp only [Function.update_of_ne he, held, Function.update_of_ne hd]
          exact List.Subset.refl _
    obtain ha | rfl := hmem.mp ha
    · obtain ⟨hc, hsub⟩ | ⟨hc, hsub⟩ := h.joined a ha c hjc
      · refine .inl ⟨hbehind hc, ?_⟩
        rwa [hbarrier, Function.update_of_ne (hne hc)]
      · by_cases he : c = b
        case pos =>
          subst he
          refine .inl ⟨hmem.mpr (.inr rfl), ?_⟩
          rw [hbarrier, Function.update_self]
          exact List.Subset.trans hsub (List.subset_append_right _ _)
        case neg => exact .inr ⟨fun hm => (hmem.mp hm).elim hc he, List.Subset.trans hsub (hheld he)⟩
    · have hcb : c ≠ a := fun he => absurd hac.left (by rw [he]; exact lt_irrefl _)
      have hcd : c ∉ done := by
        intro hc
        have := ((hbefore c).mpr hc).left
        exact absurd hac.left (by omega)
      refine .inr ⟨fun hm => (hmem.mp hm).elim hcd hcb, ?_⟩
      simp only [Walk.visit, hjc, Function.update_self]
      exact List.subset_append_right _ _
  case refine_6 =>
    intro c hc s hs
    rw [hbarrier] at hs
    obtain hc | rfl := hmem.mp hc
    · rw [Function.update_of_ne (hne hc)] at hs
      exact h.only c hc s hs
    · rw [Function.update_self] at hs
      obtain hs | hs := List.mem_append.mp hs
      · obtain ⟨a, ha, hja, hsa⟩ := h.earlier s hs
        exact ⟨a, (hbefore a).mpr ha, .inl hja, hsa⟩
      · obtain ⟨a, ha, hja, hsa⟩ := h.held c s hs
        exact ⟨a, (hbefore a).mpr ha, .inr hja, hsa⟩

theorem walked (members : String → List Step) (hn : sites.Nodup)
    (hj : ∀ a ∈ sites, ∀ c, joins a = some c → Before sites a c) :
    Walked members joins sites sites (barriers members joins sites) := by
  suffices h : ∀ done rest, sites = done ++ rest →
      Walked members joins sites done (done.foldl (Walk.visit members joins) ⟨fun _ => [], fun _ => [], []⟩) from
    h sites [] (by simp)
  intro done
  induction done using List.reverseRecOn
  case nil => exact fun _ _ => ⟨by simp, by simp, by simp, by simp, by simp, by simp⟩
  case append_singleton done b hi =>
    intro rest hs
    rw [List.append_assoc, List.singleton_append] at hs
    rw [List.foldl_concat]
    exact walked_visit hs hn hj (hi (b :: rest) hs)

-- Groups that are no sites have no barrier.
theorem barrier_other (members : String → List Step) (h : b ∉ sites) : (barriers members joins sites).barrier b = [] := by
  suffices hw : ∀ w : Walk, (sites.foldl (Walk.visit members joins) w).barrier b = w.barrier b from hw _
  induction sites
  case nil => exact fun _ => rfl
  case cons a sites hi =>
    intro w
    rw [List.mem_cons, not_or] at h
    obtain ⟨hne, hb⟩ := h
    rw [List.foldl_cons, hi hb]
    unfold Walk.visit
    extract_lets barrier held
    split <;> exact Function.update_of_ne hne _ _

theorem mem_barrier {members : String → List Step} (hw : Walked members joins sites sites (barriers members joins sites))
    (h : s ∈ (barriers members joins sites).barrier b) :
    ∃ a, Before sites a b ∧ (joins a = none ∨ joins a = some b) ∧ s ∈ members a := by
  by_cases hb : b ∈ sites
  case pos => exact hw.only b hb s h
  case neg =>
    rw [barrier_other members hb] at h
    cases h

end Walks

section Backward

theorem mem_backward : t ∈ backward steps sites ↔ ∃ s ∈ steps,
    t = { s with needs := s.needs.filter fun need => ¬ later steps sites s.name need } := by
  rw [backward, List.mem_map]
  exact exists_congr fun s => and_congr_right fun _ => eq_comm

theorem names_backward : (backward steps sites).map Step.name = steps.map Step.name := by
  simp [backward, Function.comp_def]

theorem names_eq : names (backward steps sites) = names steps := by
  rw [names, names_backward, names]

theorem Ranked.backward {α : Type} [LinearOrder α] {rank : String → α} (sites : List String) (h : Ranked rank steps) :
    Ranked rank (backward steps sites) where
  nodup := by
    rw [names_backward]
    exact h.nodup
  known := by
    intro t ht
    obtain ⟨s, hs, rfl⟩ := mem_backward.mp ht
    rw [names_eq]
    exact (Finset.filter_subset _ _).trans (h.known s hs)
  lt    := by
    intro t ht need hneed
    obtain ⟨s, hs, rfl⟩ := mem_backward.mp ht
    exact h.lt s hs need (Finset.mem_filter.mp hneed).left

-- No step of a site needs one of a later site.
theorem backward_cut (hn : sites.Nodup) (hnames : (steps.map Step.name).Nodup) (hs : s ∈ backward steps sites)
    (ht : t ∈ backward steps sites) (h : t.name ∈ s.needs) : ¬ Before sites s.group t.group := by
  obtain ⟨s', hs', rfl⟩ := mem_backward.mp hs
  obtain ⟨t', ht', rfl⟩ := mem_backward.mp ht
  intro hb
  have hl := (later_iff hn hnames hs').mpr ⟨t', ht', rfl, hb⟩
  simp [hl] at h

theorem backward_other (hn : sites.Nodup) (hnames : (steps.map Step.name).Nodup) (hs : s ∈ steps) (hg : s.group ∉ sites) :
    { s with needs := s.needs.filter fun need => ¬ later steps sites s.name need } = s := by
  have hfalse (need : String) : later steps sites s.name need = false := by
    rw [Bool.eq_false_iff]
    intro hl
    obtain ⟨t, _, _, hb⟩ := (later_iff hn hnames hs).mp hl
    exact hg hb.mem_left
  simp [hfalse]

end Backward

section Edged

-- The steps of a group that is no site.
def Outside (steps : List Step) (sites : List String) (x : String) : Prop :=
  ∃ s ∈ steps, s.name = x ∧ s.group ∉ sites

-- A need through steps of groups that are no sites.
def Through (steps : List Step) (sites : List String) (x y : String) : Prop :=
  ∃ z, Needs steps x z ∧ Outside steps sites z ∧
    Relation.ReflTransGen (fun u v => Outside steps sites u ∧ Needs steps u v) z y

-- A site that is not joined comes before all later ones, and a joined one before the site it joins. It comes before
-- those that this site comes before, if that has a step they wait for.
inductive Precedes (sites : List String) (joins : String → Option String) (holds : String → Prop) : String → String → Prop
  | next {a b : String} (h : Before sites a b) (hj : joins a = none) : Precedes sites joins holds a b
  | joined {a b : String} (ha : a ∈ sites) (hj : joins a = some b) : Precedes sites joins holds a b
  | through {a b c : String} (ha : a ∈ sites) (hj : joins a = some b) (hb : holds b)
    (h : Precedes sites joins holds b c) : Precedes sites joins holds a c

-- The steps with the edges of their sites, of which `late` are late.
def edged (found : List Step) (late : Finset String) (sites : List String) (joins : String → Option String) : List Step :=
  found.map fun step =>
    { step with needs := step.needs ∪ names ((barriers (members found late) joins sites).barrier step.group) }

variable {late : Finset String}

theorem mem_edged : t ∈ edged found late sites joins ↔ ∃ s ∈ found, t =
    { s with needs := s.needs ∪ names ((barriers (members found late) joins sites).barrier s.group) } := by
  rw [edged, List.mem_map]
  exact exists_congr fun s => and_congr_right fun _ => eq_comm

theorem mem_members : s ∈ members found late a ↔ s ∈ found ∧ s.group = a ∧ s.name ∉ late := by
  simp [members]

theorem needs_edged {x y : String} : Needs (edged found late sites joins) x y ↔ Needs found x y ∨
    ∃ s ∈ found, s.name = x ∧ ∃ t ∈ (barriers (members found late) joins sites).barrier s.group, t.name = y := by
  constructor
  case mp =>
    rintro ⟨t, ht, rfl, hy⟩
    obtain ⟨s, hs, rfl⟩ := mem_edged.mp ht
    obtain hy | hy := Finset.mem_union.mp hy
    · exact .inl ⟨s, hs, rfl, hy⟩
    · exact .inr ⟨s, hs, rfl, mem_names.mp hy⟩
  case mpr =>
    rintro (⟨s, hs, rfl, hy⟩ | ⟨s, hs, rfl, t, ht, rfl⟩)
    · exact ⟨_, mem_edged.mpr ⟨s, hs, rfl⟩, rfl, Finset.mem_union_left _ hy⟩
    · exact ⟨_, mem_edged.mpr ⟨s, hs, rfl⟩, rfl, Finset.mem_union_right _ (mem_names.mpr ⟨t, ht, rfl⟩)⟩

theorem needs_barrier (hs : s ∈ found) (hsub : members found late a ⊆ (barriers (members found late) joins sites).barrier s.group)
    (ht : t ∈ members found late a) : Needs (edged found late sites joins) s.name t.name :=
  needs_edged.mpr (.inr ⟨s, hs, rfl, t, hsub ht, rfl⟩)

-- Each step of a site needs those of an earlier site that is not joined, some through steps of the sites between.
theorem needs_unjoined (hw : Walked (members found late) joins sites sites (barriers (members found late) joins sites))
    (hs : s ∈ found) (ht : t ∈ members found late a) (hb : Before sites a s.group) (hj : joins a = none) :
    Relation.TransGen (Needs (edged found late sites joins)) s.name t.name := by
  induction hk : sites.idxOf s.group using Nat.strong_induction_on generalizing s with
  | _ k hi =>
    subst hk
    obtain ⟨c, -, hca, hcb, hmc, hsub⟩ := hw.unjoined s.group hb.right a hb hj (List.ne_nil_of_mem ht)
    obtain rfl | hac := hca
    · exact .single (needs_barrier hs hsub ht)
    · obtain ⟨m, hm⟩ := List.exists_mem_of_ne_nil _ hmc
      obtain ⟨hm', rfl, -⟩ := mem_members.mp hm
      exact .head (needs_barrier hs hsub hm) (hi _ hcb.left hm' hac rfl)

theorem needs_precedes (hw : Walked (members found late) joins sites sites (barriers (members found late) joins sites))
    (hj : ∀ a ∈ sites, ∀ c, joins a = some c → Before sites a c) {holds : String → Prop}
    (hh : ∀ b, holds b → ∃ m, m ∈ members found late b) (hs : s ∈ found) (ht : t ∈ members found late a)
    (h : Precedes sites joins holds a s.group) : Relation.TransGen (Needs (edged found late sites joins)) s.name t.name := by
  have hjoined {a b : String} {s t : Step} (ha : a ∈ sites) (hjb : joins a = some b) (hs : s ∈ found) (hg : s.group = b)
      (ht : t ∈ members found late a) : Needs (edged found late sites joins) s.name t.name := by
    obtain ⟨-, hsub⟩ | ⟨hn, -⟩ := hw.joined a ha b hjb
    · exact needs_barrier hs (hg ▸ hsub) ht
    · exact absurd (hj a ha b hjb).right hn
  generalize hg : s.group = b at h
  induction h generalizing t with
  | next hb hja             => exact needs_unjoined hw hs ht (hg ▸ hb) hja
  | joined ha hja           => exact .single (hjoined ha hja hs hg ht)
  | through ha hja hb _ hi  =>
    obtain ⟨m, hm⟩ := hh _ hb
    obtain ⟨hm', hmg, -⟩ := mem_members.mp hm
    exact .tail (hi hm hg) (hjoined ha hja hm' hmg ht)

-- The steps of sites that a step needs, and the last of their sites.
open Classical in
noncomputable def needed (found : List Step) (sites : List String) (x : String) : Finset Step :=
  found.toFinset.filter fun t => t.group ∈ sites ∧ Relation.ReflTransGen (Needs found) x t.name

theorem mem_needed {x : String} :
    t ∈ needed found sites x ↔ t ∈ found ∧ t.group ∈ sites ∧ Relation.ReflTransGen (Needs found) x t.name := by
  simp [needed]

noncomputable def level (found : List Step) (sites : List String) (x : String) : ℕ :=
  (needed found sites x).sup fun t => sites.idxOf t.group + 1

theorem level_le (sites : List String) {x y : String} (h : Needs found x y) : level found sites y ≤ level found sites x := by
  refine Finset.sup_mono fun t ht => ?_
  obtain ⟨ht, hg, hr⟩ := mem_needed.mp ht
  exact mem_needed.mpr ⟨ht, hg, .head h hr⟩

theorem lt_level (hs : s ∈ found) (hg : s.group ∈ sites) : sites.idxOf s.group < level found sites s.name :=
  Finset.le_sup (f := fun t : Step => sites.idxOf t.group + 1) (mem_needed.mpr ⟨hs, hg, .refl⟩)

-- What a step that is not late needs is not late.
theorem not_late {x y : String} (hlate : ∀ x, x ∈ late ↔ Late found x) (h : Relation.ReflTransGen (Needs found) x y)
    (hx : x ∉ late) : y ∉ late := by
  intro hy
  obtain ⟨w, hw, hslow⟩ := (hlate y).mp hy
  exact hx ((hlate x).mpr ⟨w, h.trans hw, hslow⟩)

-- A step of a site that is not late needs no later site, if it does not through other groups.
theorem level_eq (hnames : (found.map Step.name).Nodup) (hlate : ∀ x, x ∈ late ↔ Late found x)
    (hcut : ∀ s ∈ found, ∀ t ∈ found, t.name ∈ s.needs → ¬ Before sites s.group t.group)
    (hthrough : ∀ s ∈ found, ∀ t ∈ found, s.name ∉ late → Through found sites s.name t.name → ¬ Before sites s.group t.group)
    (hs : s ∈ found) (hg : s.group ∈ sites) (hn : s.name ∉ late) :
    level found sites s.name = sites.idxOf s.group + 1 := by
  refine le_antisymm (Finset.sup_le fun t ht => ?_) (lt_level hs hg)
  obtain ⟨ht, htg, hr⟩ := mem_needed.mp ht
  -- The last step of a site on the way is not of a later one.
  have hway {y : String} (hr : Relation.ReflTransGen (Needs found) s.name y) : ∃ r ∈ found, r.group ∈ sites ∧
      r.name ∉ late ∧ sites.idxOf r.group ≤ sites.idxOf s.group ∧
        (r.name = y ∨ Needs found r.name y ∨ Through found sites r.name y) := by
    induction hr with
    | refl            => exact ⟨s, hs, hg, hn, le_rfl, .inl rfl⟩
    | @tail u v _ h hi =>
      obtain ⟨r, hr, hrg, hrn, hle, hu⟩ := hi
      obtain ⟨q, hq, rfl, hv⟩ := h
      by_cases hqg : q.group ∈ sites
      case neg =>
        have hout : Outside found sites q.name := ⟨q, hq, rfl, hqg⟩
        have hqv : Needs found q.name v := ⟨q, hq, rfl, hv⟩
        refine ⟨r, hr, hrg, hrn, hle, ?_⟩
        obtain he | hu | ⟨z, hz, hzo, hzq⟩ := hu
        · exact absurd hrg (eq_of_name hnames hr hq he ▸ hqg)
        · exact .inr (.inr ⟨q.name, hu, hout, .single ⟨hout, hqv⟩⟩)
        · exact .inr (.inr ⟨z, hz, hzo, hzq.tail ⟨hout, hqv⟩⟩)
      case pos =>
        refine ⟨q, hq, hqg, ?_, ?_, .inr (.inl ⟨q, hq, rfl, hv⟩)⟩
        · obtain he | hu | ⟨z, hz, -, hzq⟩ := hu
          · exact he ▸ hrn
          · exact not_late hlate (.single hu) hrn
          · have hzq : Relation.ReflTransGen (Needs found) z q.name :=
              Relation.ReflTransGen.mono (r := fun u v => Outside found sites u ∧ Needs found u v) (fun _ _ h => h.right)
                _ _ hzq
            exact not_late hlate (.head hz hzq) hrn
        · refine le_trans ?_ hle
          obtain he | ⟨r', hr', he, hq'⟩ | hu := hu
          · rw [eq_of_name hnames hr hq he]
          · obtain rfl := eq_of_name hnames hr' hr he
            exact (not_before hqg).mp (hcut r' hr' q hq hq')
          · exact (not_before hqg).mp (hthrough r hr q hq hrn hu)
  obtain ⟨r, hr, hrg, hrn, hle, hu⟩ := hway hr
  refine Nat.succ_le_succ (le_trans ?_ hle)
  obtain he | ⟨r', hr', he, ht'⟩ | hu := hu
  · rw [eq_of_name hnames hr ht he]
  · obtain rfl := eq_of_name hnames hr' hr he
    exact (not_before htg).mp (hcut r' hr' t ht ht')
  · exact (not_before htg).mp (hthrough r hr t ht hrn hu)

theorem names_edged : names (edged found late sites joins) = names found := by
  simp [names, edged, Function.comp_def]

-- The late steps come last, the others by the last site they need.
theorem edged_ranked {rank : String → ℕ} (hr : Ranked rank found) (hlate : ∀ x, x ∈ late ↔ Late found x)
    (hw : Walked (members found late) joins sites sites (barriers (members found late) joins sites))
    (hcut : ∀ s ∈ found, ∀ t ∈ found, t.name ∈ s.needs → ¬ Before sites s.group t.group)
    (hthrough : ∀ s ∈ found, ∀ t ∈ found, s.name ∉ late → Through found sites s.name t.name → ¬ Before sites s.group t.group) :
    Ranked (fun x => toLex (if x ∈ late then 1 else 0, toLex (level found sites x, rank x)))
      (edged found late sites joins) where
  nodup := by
    rw [edged, List.map_map]
    exact hr.nodup
  known := by
    intro t ht x hx
    rw [names_edged]
    obtain ⟨s, hs, rfl⟩ := mem_edged.mp ht
    obtain hx | hx := Finset.mem_union.mp hx
    · exact hr.known s hs hx
    · obtain ⟨m, hm, rfl⟩ := mem_names.mp hx
      obtain ⟨a, -, -, hm⟩ := mem_barrier hw hm
      exact mem_names.mpr ⟨m, (mem_members.mp hm).left, rfl⟩
  lt    := by
    intro t ht x hx
    obtain ⟨s, hs, rfl⟩ := mem_edged.mp ht
    simp only [Prod.Lex.toLex_lt_toLex]
    by_cases hx' : x ∈ late
    case pos =>
      -- A late step is needed by the steps that need it anyway, and these are late.
      have hneed : x ∈ s.needs := by
        obtain hx | hx := Finset.mem_union.mp hx
        · exact hx
        · obtain ⟨m, hm, rfl⟩ := mem_names.mp hx
          obtain ⟨a, -, -, hm⟩ := mem_barrier hw hm
          exact absurd hx' (mem_members.mp hm).right.right
      have hn : Needs found s.name x := ⟨s, hs, rfl, hneed⟩
      have hs' : s.name ∈ late := by
        by_contra hs'
        exact not_late hlate (.single hn) hs' hx'
      refine .inr ⟨by rw [if_pos hx', if_pos hs'], ?_⟩
      obtain hlt | he := (level_le sites hn).lt_or_eq
      · exact .inl hlt
      · exact .inr ⟨he, hr.lt s hs x hneed⟩
    case neg =>
      by_cases hs' : s.name ∈ late
      case pos => exact .inl (by rw [if_neg hx', if_pos hs']; decide)
      case neg =>
        refine .inr ⟨by rw [if_neg hx', if_neg hs'], ?_⟩
        obtain hneed | hx := Finset.mem_union.mp hx
        · obtain hlt | he := (level_le sites ⟨s, hs, rfl, hneed⟩).lt_or_eq
          · exact .inl hlt
          · exact .inr ⟨he, hr.lt s hs x hneed⟩
        · obtain ⟨m, hm, rfl⟩ := mem_names.mp hx
          obtain ⟨a, hb, -, hm⟩ := mem_barrier hw hm
          obtain ⟨hmf, rfl, hm'⟩ := mem_members.mp hm
          refine .inl ?_
          rw [level_eq hr.nodup hlate hcut hthrough hmf hb.mem_left hm']
          exact lt_of_le_of_lt hb.left (lt_level hs hb.right)

end Edged

section SiteEdges

-- What the site edges of a pass are.
structure SiteOrdered (steps : List Step) (sites : List String) (joins : String → Option String) (edged : List Step) :
    Prop where
  same    : List.Forall₂ (fun s t => t.name = s.name ∧ t.group = s.group ∧ t.lane = s.lane ∧ (s.group ∉ sites → t = s))
    steps edged
  after   : ∀ s ∈ edged, ∀ t ∈ edged, ¬ Late (backward steps sites) t.name →
    Precedes sites joins (fun b => ∃ m ∈ edged, m.group = b ∧ ¬ Late (backward steps sites) m.name) t.group s.group →
      Relation.TransGen (Needs edged) s.name t.name
  only    : ∀ s ∈ edged, ∀ t ∈ edged, t.name ∈ s.needs → Needs (backward steps sites) s.name t.name ∨
    ¬ Late (backward steps sites) t.name ∧ Before sites t.group s.group ∧ (joins t.group = none ∨ joins t.group = some s.group)
  acyclic : (∀ s ∈ edged, ∀ t ∈ edged, s.group ∈ sites → ¬ Late (backward steps sites) s.name →
      Through (backward steps sites) sites s.name t.name → ¬ Before sites s.group t.group) →
    (∀ x, ¬ Relation.TransGen (Needs edged) x x) ∧ (ordered edged).isSome

theorem siteEdges_ordered (steps : List Step) (sites : List String) (joins : String → Option String)
    (ha : (waves steps).isSome) (hn : sites.Nodup) (hj : ∀ a ∈ sites, ∀ b, joins a = some b → Before sites a b) :
    ∃ edged, siteEdges steps sites joins = some edged ∧ SiteOrdered steps sites joins edged := by
  obtain ⟨rank, hr⟩ := waves_ranked ha
  have hb := hr.backward sites
  obtain ⟨late, hl, hlate⟩ := hb.late
  have hw := walked (members (backward steps sites) late) hn hj
  refine ⟨edged (backward steps sites) late sites joins, ?_, ?_⟩
  · rw [siteEdges, hl]
    rfl
  have hfound {t : Step} (ht : t ∈ edged (backward steps sites) late sites joins) :
      ∃ s ∈ backward steps sites, s.name = t.name ∧ s.group = t.group := by
    obtain ⟨s, hs, rfl⟩ := mem_edged.mp ht
    exact ⟨s, hs, rfl, rfl⟩
  refine ⟨?_, ?_, ?_, ?_⟩
  case refine_1 =>
    rw [edged, backward, List.map_map, List.forall₂_map_right_iff, List.forall₂_same]
    refine fun s hs => ⟨rfl, rfl, rfl, fun hg => ?_⟩
    have hs' := backward_other hn hr.nodup hs hg
    simpa [barrier_other _ hg, names] using hs'
  case refine_2 =>
    intro s hs t ht htl hp
    obtain ⟨s', hs', hsn, hsg⟩ := hfound hs
    obtain ⟨t', ht', htn, htg⟩ := hfound ht
    rw [← hsn, ← htn]
    rw [← hsg, ← htg] at hp
    refine needs_precedes hw hj ?_ hs' (mem_members.mpr ⟨ht', rfl, ?_⟩) hp
    · rintro b ⟨m, hm, rfl, hml⟩
      obtain ⟨m', hm', hmn, hmg⟩ := hfound hm
      exact ⟨m', mem_members.mpr ⟨hm', hmg, by rwa [hlate, hmn]⟩⟩
    · rwa [hlate, htn]
  case refine_3 =>
    intro s hs t ht hneed
    obtain ⟨s', hs', rfl⟩ := mem_edged.mp hs
    obtain ⟨t', ht', htn, htg⟩ := hfound ht
    obtain hneed | hneed := Finset.mem_union.mp hneed
    · exact .inl ⟨s', hs', rfl, hneed⟩
    · obtain ⟨m, hm, hmn⟩ := mem_names.mp hneed
      obtain ⟨a, hab, hja, hm⟩ := mem_barrier hw hm
      obtain ⟨hm', rfl, hml⟩ := mem_members.mp hm
      obtain rfl := eq_of_name hb.nodup hm' ht' (hmn.trans htn.symm)
      rw [← hmn, ← htg]
      exact .inr ⟨(hlate _).not.mp hml, hab, hja⟩
  case refine_4 =>
    intro hthrough
    have hlift {s : Step} (hs : s ∈ backward steps sites) :
        ∃ t ∈ edged (backward steps sites) late sites joins, t.name = s.name ∧ t.group = s.group :=
      ⟨_, mem_edged.mpr ⟨s, hs, rfl⟩, rfl, rfl⟩
    have hranked := edged_ranked hb hlate hw (fun s hs t ht h => backward_cut hn hr.nodup hs ht h)
      fun s hs t ht hsl hst hbefore => by
        obtain ⟨s', hs', hsn, hsg⟩ := hlift hs
        obtain ⟨t', ht', htn, htg⟩ := hlift ht
        refine hthrough s' hs' t' ht' (hsg ▸ hbefore.mem_left) ?_ (hsn ▸ htn ▸ hst) (hsg ▸ htg ▸ hbefore)
        rw [hsn]
        exact (hlate _).not.mp hsl
    exact ⟨hranked.irrefl, hranked.ordered⟩

def intentJoins : String → Option String
  | "wrapper intent" => some "wrapper relay"
  | _                => none

def wrapperSteps : List Step :=
  [⟨"intent check", "wrapper intent", "tick", ∅⟩, ⟨"observe", "tick", "tick", ∅⟩, ⟨"report", "tick", "slow", {"observe"}⟩,
    ⟨"page relay", "wrapper relay", "tick", ∅⟩]

theorem siteEdges_ordered_wrapper :
    ∃ edged, siteEdges wrapperSteps ["wrapper intent", "tick", "wrapper relay"] intentJoins = some edged ∧
      SiteOrdered wrapperSteps ["wrapper intent", "tick", "wrapper relay"] intentJoins edged := by
  refine siteEdges_ordered _ _ _ (by decide) (by decide) fun a _ b hj => ?_
  unfold intentJoins at hj
  split at hj
  case h_1 =>
    obtain rfl := Option.some.inj hj
    exact ⟨by decide, by decide⟩
  case h_2 => cases hj

-- A need through another group, a joined site without steps, and a site that is named twice.
theorem siteEdges_fails :
    ((waves [⟨"a1", "a", "tick", {"x1"}⟩, ⟨"x1", "x", "tick", {"b1"}⟩, ⟨"b1", "b", "tick", ∅⟩]).isSome ∧
      (siteEdges [⟨"a1", "a", "tick", {"x1"}⟩, ⟨"x1", "x", "tick", {"b1"}⟩, ⟨"b1", "b", "tick", ∅⟩] ["a", "b"]
        fun _ => none).bind ordered = none) ∧
      (siteEdges [⟨"a1", "wrapper intent", "tick", ∅⟩, ⟨"c1", "c", "tick", ∅⟩] ["wrapper intent", "wrapper relay", "c"]
        intentJoins = some [⟨"a1", "wrapper intent", "tick", ∅⟩, ⟨"c1", "c", "tick", ∅⟩] ∧
        ¬ Relation.TransGen (Needs [⟨"a1", "wrapper intent", "tick", ∅⟩, ⟨"c1", "c", "tick", ∅⟩]) "c1" "a1") ∧
      (siteEdges [⟨"a1", "a", "tick", ∅⟩] ["a", "a"] fun _ => none).bind ordered = none := by
  refine ⟨⟨by decide, by decide⟩, ⟨by decide, fun h => ?_⟩, by decide⟩
  obtain ⟨y, ⟨s, hs, -, hy⟩, -⟩ := Relation.TransGen.head'_iff.mp h
  obtain rfl | hs := List.mem_cons.mp hs
  · simp at hy
  · obtain rfl := List.mem_singleton.mp hs
    simp at hy

end SiteEdges

end Sites
