import Mathlib.Logic.Relation
import Agentihooks.Plans.Phases

-- The visits succeed on exactly the graphs without a cycle: what was visited leads nowhere forever, and the chain of a
-- visit leads to its phase.

namespace Plans

open Relation

section Visits

variable {graph : KeyTable String (List String)} {a b phase : String} {l chain visited visited' : List String}

def Edge (graph : KeyTable String (List String)) (a b : String) : Prop :=
  ∃ dependencies, graph.lookup a = some dependencies ∧ b ∈ dependencies

-- No path from a phase goes on forever.
def Grounded (graph : KeyTable String (List String)) : String → Prop :=
  Acc (Function.swap (Edge graph))

theorem Grounded.acyclic (h : Grounded graph a) : ¬ TransGen (Edge graph) a a := by
  have hg : Acc (TransGen (Function.swap (Edge graph))) a := h.transGen
  rw [← transGen_swap]
  induction hg
  case intro b _ hi => exact fun hb => hi b hb (h.inv_of_transGen hb) hb

-- A visit that succeeds leaves the phase visited, and only phases visited that are grounded.
theorem visitEach_grounded (h : visitEach graph l chain visited = .ok visited')
    (hv : ∀ a ∈ visited, Grounded graph a) :
    (∀ a ∈ l, Grounded graph a) ∧ ∀ a ∈ visited', Grounded graph a := by
  refine visitEach.induct graph
    (fun phase chain visited => ∀ visited', visit graph phase chain visited = .ok visited' →
      (∀ a ∈ visited, Grounded graph a) → Grounded graph phase ∧ ∀ a ∈ visited', Grounded graph a)
    (fun l chain visited => ∀ visited', visitEach graph l chain visited = .ok visited' →
      (∀ a ∈ visited, Grounded graph a) → (∀ a ∈ l, Grounded graph a) ∧ ∀ a ∈ visited', Grounded graph a)
    ?chained ?visited ?missing ?failed ?entered ?nil ?stopped ?cons l chain visited visited' h hv
  case chained =>
    intro phase chain visited hc visited' h
    rw [visit, dif_pos hc] at h
    cases h
  case visited =>
    intro phase chain visited hc hm visited' h hv
    rw [visit, dif_neg hc, if_pos hm] at h
    cases h
    exact ⟨hv phase hm, hv⟩
  case missing =>
    intro phase chain visited hc hm hg visited' h
    rw [visit, dif_neg hc, if_neg hm] at h
    split at h
    case h_1 => cases h
    case h_2 hs => rw [hg] at hs; cases hs
  case failed =>
    intro phase chain visited hc hm dependencies hg e he _ visited' h
    rw [visit, dif_neg hc, if_neg hm] at h
    split at h
    case h_1 => cases h
    case h_2 hs =>
      rw [hg, Option.some_inj] at hs
      subst hs
      rw [he] at h
      cases h
  case entered =>
    intro phase chain visited hc hm dependencies hg visited₁ he hi visited' h hv
    rw [visit, dif_neg hc, if_neg hm] at h
    split at h
    case h_1 => cases h
    case h_2 hs =>
      rw [hg, Option.some_inj] at hs
      subst hs
      rw [he] at h
      cases h
      obtain ⟨hd, hv₁⟩ := hi visited₁ he hv
      have hphase : Grounded graph phase := by
        refine .intro _ fun b hb => ?_
        obtain ⟨dependencies', hg', hb⟩ := hb
        rw [hg, Option.some_inj] at hg'
        exact hd b (hg' ▸ hb)
      refine ⟨hphase, fun a ha => ?_⟩
      obtain ha | ha := List.mem_append.mp ha
      · exact hv₁ a ha
      · exact List.mem_singleton.mp ha ▸ hphase
  case nil =>
    intro chain visited visited' h hv
    rw [visitEach] at h
    cases h
    exact ⟨List.forall_mem_nil _, hv⟩
  case stopped =>
    intro phase l chain visited e he _ visited' h
    rw [visitEach, he] at h
    cases h
  case cons =>
    intro phase l chain visited visited₁ he hi hi' visited' h hv
    rw [visitEach, he] at h
    obtain ⟨hp, hv₁⟩ := hi visited₁ he hv
    obtain ⟨hl, hv'⟩ := hi' visited' h hv₁
    exact ⟨List.forall_mem_cons.mpr ⟨hp, hl⟩, hv'⟩

-- Where there is no cycle and every dependency is a phase, no visit fails.
theorem visitEach_ok (hcycle : ∀ a, ¬ TransGen (Edge graph) a a)
    (hknown : ∀ a b, Edge graph a b → graph.lookup b ≠ none) (hl : ∀ a ∈ l, graph.lookup a ≠ none)
    (hc : ∀ c ∈ chain, ∀ a ∈ l, TransGen (Edge graph) c a) :
    ∃ visited', visitEach graph l chain visited = .ok visited' := by
  refine visitEach.induct graph
    (fun phase chain visited => graph.lookup phase ≠ none → (∀ c ∈ chain, TransGen (Edge graph) c phase) →
      ∃ visited', visit graph phase chain visited = .ok visited')
    (fun l chain visited => (∀ a ∈ l, graph.lookup a ≠ none) → (∀ c ∈ chain, ∀ a ∈ l, TransGen (Edge graph) c a) →
      ∃ visited', visitEach graph l chain visited = .ok visited')
    ?chained ?visited ?missing ?failed ?entered ?nil ?stopped ?cons l chain visited hl hc
  case chained => exact fun phase chain visited hm _ hc => absurd (hc phase hm) (hcycle phase)
  case visited =>
    intro phase chain visited hm hv _ _
    exact ⟨visited, by rw [visit, dif_neg hm, if_pos hv]⟩
  case missing => exact fun phase chain visited _ _ hg hp _ => absurd hg hp
  case failed =>
    intro phase chain visited _ _ dependencies hg e he hi _ hc
    have hedge : ∀ a ∈ dependencies, Edge graph phase a := fun a ha => ⟨dependencies, hg, ha⟩
    have hi := hi (fun a ha => hknown phase a (hedge a ha)) fun c hcm a ha => by
      obtain hcm | hcm := List.mem_append.mp hcm
      · exact (hc c hcm).tail (hedge a ha)
      · exact List.mem_singleton.mp hcm ▸ .single (hedge a ha)
    obtain ⟨visited', hok⟩ := hi
    rw [he] at hok
    cases hok
  case entered =>
    intro phase chain visited hm hv dependencies hg visited₁ he _ _ _
    refine ⟨visited₁ ++ [phase], ?_⟩
    rw [visit, dif_neg hm, if_neg hv]
    split
    case h_1 hs => rw [hg] at hs; cases hs
    case h_2 hs =>
      rw [hg, Option.some_inj] at hs
      subst hs
      rw [he]
  case nil => exact fun chain visited _ _ => ⟨visited, by rw [visitEach]⟩
  case stopped =>
    intro phase l chain visited e he hi hl hc
    obtain ⟨visited', hok⟩ := hi (hl phase List.mem_cons_self) fun c hcm => hc c hcm phase List.mem_cons_self
    rw [he] at hok
    cases hok
  case cons =>
    intro phase l chain visited visited₁ he _ hi hl hc
    rw [visitEach, he]
    exact hi (fun a ha => hl a (List.mem_cons_of_mem _ ha)) fun c hcm a ha => hc c hcm a (List.mem_cons_of_mem _ ha)

end Visits

section Validate

variable {phases : List Phase} {urlsplit : String → Except String (String × String)} {a b : String}

-- Of phases with one id the last one counts.
def phaseOf (phases : List Phase) (id : String) : Option Phase :=
  phases.reverse.find? (·.id = id)

def DependsOn (phases : List Phase) (a b : String) : Prop :=
  ∃ p, phaseOf phases a = some p ∧ b ∈ p.dependsOn

theorem lookup_graph : (graph phases).lookup a = (phaseOf phases a).map Phase.dependsOn := by
  induction phases using List.reverseRecOn
  case nil => rfl
  case append_singleton phases p hi =>
    have hg : graph (phases ++ [p]) = (graph phases).insert p.id p.dependsOn := by
      simp [graph, KeyTable.ofList]
    have hf : phaseOf (phases ++ [p]) a = if p.id = a then some p else phaseOf phases a := by
      by_cases hp : p.id = a <;> simp [phaseOf, hp]
    rw [hg, hf]
    by_cases h : a = p.id
    case pos => rw [h, AList.lookup_insert, if_pos rfl, Option.map_some]
    case neg => rw [AList.lookup_insert_ne h, if_neg (Ne.symm h), hi]

theorem phaseOf_ne_none : phaseOf phases a ≠ none ↔ ∃ p ∈ phases, p.id = a := by
  simp [phaseOf, List.find?_eq_none]

theorem lookup_graph_ne_none : (graph phases).lookup a ≠ none ↔ ∃ p ∈ phases, p.id = a := by
  rw [lookup_graph, Ne, Option.map_eq_none_iff, ← Ne, phaseOf_ne_none]

theorem edge_iff : Edge (graph phases) a b ↔ DependsOn phases a b := by
  rw [Edge, lookup_graph, DependsOn]
  constructor
  case mp =>
    rintro ⟨_, hm, hb⟩
    obtain ⟨p, hp, rfl⟩ := Option.map_eq_some_iff.mp hm
    exact ⟨p, hp, hb⟩
  case mpr =>
    rintro ⟨p, hp, hb⟩
    exact ⟨_, by rw [hp, Option.map_some], hb⟩

-- Where no two phases have one id, a phase depends on what it says.
theorem dependsOn_of_nodup (h : (phases.map Phase.id).Nodup) :
    DependsOn phases a b ↔ ∃ p ∈ phases, p.id = a ∧ b ∈ p.dependsOn := by
  constructor
  case mp =>
    rintro ⟨p, hp, hb⟩
    have hid := List.find?_some hp
    exact ⟨p, List.mem_reverse.mp (List.mem_of_find?_eq_some hp), of_decide_eq_true hid, hb⟩
  case mpr =>
    rintro ⟨p, hp, rfl, hb⟩
    obtain ⟨q, hq⟩ := Option.ne_none_iff_exists'.mp (phaseOf_ne_none.mpr ⟨p, hp, rfl⟩)
    have hid := List.find?_some hq
    have hqm := List.mem_reverse.mp (List.mem_of_find?_eq_some hq)
    have heq : q = p := List.inj_on_of_nodup_map h hqm hp (of_decide_eq_true hid)
    exact ⟨p, heq ▸ hq, hb⟩

theorem checkEach_iff {graph : KeyTable String (List String)} : checkEach graph urlsplit phases = .ok () ↔
    ∀ p ∈ phases, checkFields urlsplit p.fields = .ok () ∧ ∀ d ∈ p.dependsOn, graph.lookup d ≠ none := by
  induction phases
  case nil => simp [checkEach]
  case cons p phases hi =>
    rw [List.forall_mem_cons, checkEach]
    cases hf : checkFields urlsplit p.fields
    case error e => simp
    case ok =>
      cases hu : p.dependsOn.filter (· ∉ graph.keys)
      case nil =>
        simp only [List.filter_eq_nil_iff, decide_eq_true_eq, not_not, KeyTable.mem_keys_iff] at hu
        simp only [hi, true_and]
        exact ⟨fun h => ⟨hu, h⟩, And.right⟩
      case cons d l =>
        have hd := List.mem_filter.mp (hu ▸ List.mem_cons_self : d ∈ p.dependsOn.filter (· ∉ graph.keys))
        rw [decide_eq_true_iff, KeyTable.mem_keys_iff, not_not] at hd
        simp only [reduceCtorEq, true_and, false_iff, not_and]
        exact fun h => absurd hd.right (h d hd.left)

-- A list of phases is valid if and only if the fields of each phase are, every named dependency is a phase of the list
-- and no phase depends on itself through any number of others.
theorem validate_iff (urlsplit : String → Except String (String × String)) (phases : List Phase) :
    (validate urlsplit phases = .ok () ↔ (∀ p ∈ phases, checkFields urlsplit p.fields = .ok ()) ∧
      (∀ p ∈ phases, ∀ d ∈ p.dependsOn, ∃ q ∈ phases, q.id = d) ∧ ∀ a, ¬ TransGen (DependsOn phases) a a) ∧
    ((phases.map Phase.id).Nodup → ∀ a b, DependsOn phases a b ↔ ∃ p ∈ phases, p.id = a ∧ b ∈ p.dependsOn) := by
  refine ⟨?_, fun h a b => dependsOn_of_nodup h⟩
  have hedge : Edge (graph phases) = DependsOn phases := by
    ext a b
    exact edge_iff
  have hids (a : String) : a ∈ (phases.map (·.id)).eraseDups ↔ (graph phases).lookup a ≠ none := by
    rw [List.mem_eraseDups, List.mem_map, lookup_graph_ne_none]
  rw [← hedge, validate]
  constructor
  case mp =>
    intro h
    cases hc : checkEach (graph phases) urlsplit phases
    case error => rw [hc] at h; cases h
    case ok =>
      have hall := checkEach_iff.mp hc
      refine ⟨fun p hp => (hall p hp).left, fun p hp d hd => lookup_graph_ne_none.mp ((hall p hp).right d hd),
        fun a ha => ?_⟩
      cases hv : visitEach (graph phases) (phases.map (·.id)).eraseDups [] []
      case error => rw [hc, hv] at h; cases h
      case ok visited =>
        have hg := (visitEach_grounded hv (List.forall_mem_nil _)).left
        obtain ⟨b, hab, _⟩ := TransGen.head'_iff.mp ha
        obtain ⟨dependencies, hl, _⟩ := hab
        exact (hg a ((hids a).mpr (by simp [hl]))).acyclic ha
  case mpr =>
    rintro ⟨hf, hk, hcycle⟩
    have hc : checkEach (graph phases) urlsplit phases = .ok () :=
      checkEach_iff.mpr fun p hp => ⟨hf p hp, fun d hd => lookup_graph_ne_none.mpr (hk p hp d hd)⟩
    have hknown : ∀ a b, Edge (graph phases) a b → (graph phases).lookup b ≠ none := by
      intro a b hab
      obtain ⟨p, hp, hb⟩ := edge_iff.mp hab
      exact lookup_graph_ne_none.mpr (hk p (List.mem_reverse.mp (List.mem_of_find?_eq_some hp)) b hb)
    obtain ⟨visited, hv⟩ := visitEach_ok hcycle hknown (fun a ha => (hids a).mp ha)
      (List.forall_mem_nil _)
    rw [hc, hv]

end Validate

end Plans
