import Agentihooks.Workflows.Schema

namespace Workflows

-- What the runs of a workflow need of it.
structure Valid (w : Workflow) : Prop where
  head   : ∃ st, w.stage w.head = some st
  max    : 1 ≤ w.maxIterations
  stages : ∀ id st, w.stage id = some st → st.id = id ∧ 1 ≤ st.iterations ∧
    ∀ o target, st.next o = some target → target = exit ∨ ∃ st, w.stage target = some st

section Checks

variable {str : Yaml → String} {fields head : Mapping} {stages : Stages} {place key : String} {f : StageFields} {id y : Yaml}

theorem eq_text_of_isText {s : String} (h : y.isText s) : y = .text s := by
  cases y <;> simp_all [Yaml.isText]

theorem asNat_pos (h : y.isPositive) : 1 ≤ y.asNat := by
  cases y <;> simp_all [Yaml.isPositive, Yaml.asNat]
  omega

theorem positive_of_count {level : Level} (h : countErrors fields level place = []) (hk : key ∈ countKeys level) :
    1 ≤ ((fields.get key).getD .null).asNat := by
  rw [countErrors, List.map_eq_nil_iff, List.filter_eq_nil_iff] at h
  have hp := h key hk
  cases hg : fields.get key
  case none   => simp [hg] at hp
  case some y => exact asNat_pos (by simpa [hg] using hp)

theorem checkValues_eq_nil {level : Level} (h : checkValues str fields level place = []) :
    countErrors fields level place = [] := by
  simp only [checkValues, List.append_eq_nil_iff] at h
  exact h.left.left.right

theorem checkValues_text {level : Level} (h : checkValues str fields level place = []) :
    textErrors fields level place = [] := by
  simp only [checkValues, List.append_eq_nil_iff] at h
  exact h.left.left.left

-- A value of a `next` mapping that the checks let through.
theorem allows_of_next {o : Outcome} {target : String} (h : nextErrors str id f stages = [])
    (ht : (f.next.get o.name).bind Yaml.text? = some target) : target = exit ∨ stages.has target := by
  rw [nextErrors, List.map_eq_nil_iff, List.filter_eq_nil_iff] at h
  obtain ⟨y, hy, ht⟩ := Option.bind_eq_some_iff.mp ht
  obtain ⟨e, hf, rfl⟩ := Option.map_eq_some_iff.mp hy
  have hkey : e.1.isText o.name := by simpa using List.find?_some hf
  have hmem := List.mem_of_find?_eq_some hf
  have hnext := h e hmem
  have hany : Outcome.all.any (fun o => e.1.isText o.name) = true :=
    List.any_eq_true.mpr ⟨o, by cases o <;> decide, hkey⟩
  have hy : e.2 = .text target := by
    revert ht
    cases e.2 <;> simp [Yaml.text?]
  have ha : stages.allows e.2 = true := by
    by_contra hn
    exact hnext (by simp [hany, hn])
  rw [hy] at ha
  simpa [Stages.allows, Yaml.isNull, Yaml.isText, Yaml.text?] using ha

theorem has_iff {s : String} : stages.has s ↔ ∃ entry ∈ stages, entry.1 = .text s := by
  rw [Stages.has, List.any_eq_true]
  refine exists_congr fun entry => and_congr_right fun _ => ⟨eq_text_of_isText, ?_⟩
  intro he
  simp [he, Yaml.isText]

theorem lookup_build {s : String} (hn : ∀ entry ∈ stages, entry.1.isName) :
    (stages.map fun entry => (entry.1.asText, buildStage entry.1 entry.2)).lookup s =
      (stages.find? (·.1.isText s)).map fun entry => buildStage entry.1 entry.2 := by
  induction stages
  case nil             => rfl
  case cons entry rest hi =>
    have hrest := hi fun entry he => hn entry (List.mem_cons_of_mem _ he)
    have hname := hn entry List.mem_cons_self
    obtain ⟨y, f⟩ := entry
    cases y with
    | text t =>
      by_cases ht : t = s
      case pos => simp [ht, Yaml.isText, Yaml.asText, Yaml.text?]
      case neg => simpa [ht, Yaml.isText, Yaml.asText, Yaml.text?, List.lookup_cons, beq_eq_false_iff_ne.mpr (Ne.symm ht)] using hrest
    | _      => cases hname

end Checks

theorem stageFields_eq_nil {str : Yaml → String} {id body : Yaml} (h : (stageFields str id body).2 = []) :
    id.isName ∧ countErrors (stageFields str id body).1.fields .stage s!"stages.{str id}" = [] := by
  simp only [stageFields, List.append_eq_nil_iff] at h ⊢
  obtain ⟨⟨⟨⟨hname, _⟩, _⟩, hchecked⟩, _⟩ := h
  refine ⟨?_, checkValues_eq_nil hchecked⟩
  by_contra hn
  simp [hn] at hname

-- The head that a workflow file gives is a name.
theorem head_isName {str : Yaml → String} {body : Mapping} {place : String}
    (hf : (filled str body workflowRequired workflowDefaults place).2 = [])
    (ht : textErrors (filled str body workflowRequired workflowDefaults place).1 .workflow place = []) :
    (((filled str body workflowRequired workflowDefaults place).1.get "head").getD .null).isName := by
  have hget : (filled str body workflowRequired workflowDefaults place).1.get "head" = some ((body.get "head").getD .null) :=
    rfl
  simp only [filled, List.append_eq_nil_iff, List.map_eq_nil_iff, List.filter_eq_nil_iff] at hf
  rw [textErrors, List.map_eq_nil_iff, List.filter_eq_nil_iff] at ht
  have hmissing := hf.left.right "head" (by simp [workflowRequired])
  have hnull := hf.right "head" (by simp [workflowRequired])
  have htext := ht "head" (by simp [textKeys])
  rw [hget] at htext ⊢
  cases hb : body.get "head" with
  | none   => simp [hb] at hmissing
  | some y =>
    simp only [hb, Option.any_some, Option.getD_some] at hnull htext ⊢
    cases y <;> simp_all [Yaml.isNull, Yaml.isName, Yaml.text?]

theorem valid_of_graph {str : Yaml → String} {head : Mapping} {stages : Stages} {name intent exit onExhausted : String}
    {max : ℕ} (hname : ((head.get "head").getD .null).isName) (hmax : 1 ≤ max)
    (hfields : ∀ entry ∈ stages, entry.1.isName ∧ ∃ place, countErrors entry.2.fields .stage place = [])
    (h : graphErrors str head stages = []) :
    Valid ⟨name, intent, ((head.get "head").getD .null).asText, max, exit, onExhausted,
      stages.map fun entry => (entry.1.asText, buildStage entry.1 entry.2)⟩ := by
  simp only [graphErrors, List.append_eq_nil_iff, List.flatMap_eq_nil_iff] at h
  obtain ⟨⟨⟨hhead, _⟩, _⟩, hedges⟩ := h
  have stage {id : String} := lookup_build (s := id) fun entry he => (hfields entry he).left
  have has {id : String} (hs : stages.has id) : ∃ st, (stages.map fun entry =>
      (entry.1.asText, buildStage entry.1 entry.2)).lookup id = some st := by
    rw [stage]
    obtain ⟨entry, hentry, he⟩ := List.any_eq_true.mp hs
    have hfind : (stages.find? (·.1.isText id)).isSome := List.find?_isSome.mpr ⟨entry, hentry, he⟩
    obtain ⟨found, hfound⟩ := Option.isSome_iff_exists.mp hfind
    exact ⟨_, by rw [hfound]; rfl⟩
  refine ⟨has ?_, hmax, fun id st hst => ?_⟩
  · obtain ⟨id, hid⟩ := Option.isSome_iff_exists.mp hname
    simp only [headErrors, hid] at hhead
    rw [Yaml.asText, hid, Option.getD_some]
    by_contra hn
    simp [hn] at hhead
  · rw [Workflow.stage, stage] at hst
    obtain ⟨entry, hfind, rfl⟩ := Option.map_eq_some_iff.mp hst
    have hid := eq_text_of_isText (by simpa using List.find?_some hfind : entry.1.isText id)
    have hmem := List.mem_of_find?_eq_some hfind
    obtain ⟨_, place, hcount⟩ := hfields entry hmem
    refine ⟨by simp [buildStage, hid, Yaml.asText, Yaml.text?], positive_of_count hcount (by simp [countKeys]), ?_⟩
    intro o target ht
    have hedge := hedges entry hmem
    exact (allows_of_next hedge.right ht).imp_right has

theorem valid_of_validate {str : Yaml → String} {document : Yaml} {w : Workflow} (h : validate str document = .ok w) :
    Valid w := by
  cases document with
  | map document =>
    simp only [validate] at h
    split at h
    case isFalse => cases h
    case isTrue he =>
      simp only [List.append_eq_nil_iff] at he
      obtain ⟨⟨⟨⟨⟨_, hfound⟩, hhead⟩, _⟩, hread⟩, hgraph⟩ := he
      have hcounted : "max_iterations" ∈ countKeys .workflow := by simp [countKeys]
      have hmax := positive_of_count (checkValues_eq_nil hhead) hcounted
      have hname := head_isName hfound (checkValues_text hhead)
      generalize (filled str (mapping document "workflow").1 workflowRequired workflowDefaults "workflow").1 = head at *
      generalize (mapping document "stages").1 = bodies at *
      obtain rfl := Except.ok.inj h
      refine valid_of_graph hname hmax (fun entry hentry => ?_) hgraph
      obtain ⟨read, hmem, rfl⟩ := List.mem_map.mp hentry
      obtain ⟨body, _, rfl⟩ := List.mem_map.mp hmem
      have hnil := List.flatMap_eq_nil_iff.mp hread _ hmem
      exact ⟨(stageFields_eq_nil hnil).left, _, (stageFields_eq_nil hnil).right⟩
  | _ => cases h

end Workflows
