import Mathlib.Data.Finset.Card
import Mathlib.Logic.Relation

-- The elements that a list of starting points leads to, found by a loop over a list that grows while it is read.

-- A graph with a finite set of targets, such that the loop comes to an end.
structure TargetGraph (α : Type) where
  next    : α → List α
  targets : Finset α
  covers  : ∀ a, ∀ b ∈ next a, b ∈ targets

namespace TargetGraph

variable {α : Type} [DecidableEq α] {g : TargetGraph α} {seen todo start : List α} {a b : α}

def Edge (g : TargetGraph α) (a b : α) : Prop :=
  b ∈ g.next a

abbrev Reach (g : TargetGraph α) : α → α → Prop :=
  Relation.ReflTransGen g.Edge

def fresh (g : TargetGraph α) (seen : List α) (a : α) : List α :=
  (g.next a).filter (· ∉ seen)

theorem mem_fresh : b ∈ g.fresh seen a ↔ g.Edge a b ∧ b ∉ seen := by
  simp [fresh, Edge]

theorem missing_lt (h : g.fresh seen a ≠ []) :
    (g.targets \ (seen ++ g.fresh seen a).toFinset).card < (g.targets \ seen.toFinset).card := by
  obtain ⟨b, hb⟩ := List.exists_mem_of_ne_nil _ h
  have ⟨he, hs⟩ := mem_fresh.mp hb
  refine Finset.card_lt_card (Finset.ssubset_iff_of_subset ?_ |>.mpr ⟨b, ?_, ?_⟩)
  · refine Finset.sdiff_subset_sdiff subset_rfl fun x hx => ?_
    simp only [List.toFinset_append, Finset.mem_union]
    exact .inl hx
  · simp [g.covers _ _ he, hs]
  · simp [hb]

-- `todo` is what is left to read of the list `seen`.
def visit (g : TargetGraph α) (seen : List α) : List α → List α
  | []        => seen
  | a :: todo => g.visit (seen ++ g.fresh seen a) (todo ++ g.fresh seen a)
termination_by todo => ((g.targets \ seen.toFinset).card, todo.length)
decreasing_by
  by_cases h : g.fresh seen a = []
  case pos =>
    rw [h, List.append_nil, List.append_nil]
    exact .right _ (by simp)
  case neg => exact .left _ _ (missing_lt h)

def closure (g : TargetGraph α) (start : List α) : List α :=
  g.visit start start

theorem subset_visit : seen ⊆ g.visit seen todo := by
  induction seen, todo using visit.induct g with
  | case1 seen => simp [visit]
  | case2 seen a todo hi =>
    rw [visit]
    exact List.append_subset.mp hi |>.left

theorem reach_of_mem_visit (ht : todo ⊆ seen) (h : b ∈ g.visit seen todo) :
    ∃ a ∈ seen, g.Reach a b := by
  induction seen, todo using visit.induct g with
  | case1 seen =>
    rw [visit] at h
    exact ⟨b, h, .refl⟩
  | case2 seen a todo hi =>
    rw [visit] at h
    have ha : a ∈ seen := ht List.mem_cons_self
    have ht' : todo ++ g.fresh seen a ⊆ seen ++ g.fresh seen a := by
      refine List.append_subset.mpr ⟨fun x hx => ?_, List.subset_append_right ..⟩
      exact List.mem_append_left _ (ht (List.mem_cons_of_mem _ hx))
    obtain ⟨c, hc, hr⟩ := hi ht' h
    cases List.mem_append.mp hc
    case inl hc => exact ⟨c, hc, hr⟩
    case inr hc => exact ⟨a, ha, .head (mem_fresh.mp hc).left hr⟩

-- Every element read so far has its successors in the list.
def Closed (g : TargetGraph α) (seen todo : List α) : Prop :=
  ∀ a ∈ seen, a ∈ todo ∨ ∀ b, g.Edge a b → b ∈ seen

theorem Closed.step (h : g.Closed seen (a :: todo)) :
    g.Closed (seen ++ g.fresh seen a) (todo ++ g.fresh seen a) := by
  have read : ∀ b, g.Edge a b → b ∈ seen ++ g.fresh seen a := fun b he => by
    by_cases hb : b ∈ seen
    case pos => exact List.mem_append_left _ hb
    case neg => exact List.mem_append_right _ (mem_fresh.mpr ⟨he, hb⟩)
  intro c hc
  cases List.mem_append.mp hc
  case inr hc => exact .inl (List.mem_append_right _ hc)
  case inl hc =>
    cases h c hc
    case inr hn => exact .inr fun b he => List.mem_append_left _ (hn b he)
    case inl ht =>
      cases List.mem_cons.mp ht
      case inl ht => exact .inr (ht ▸ read)
      case inr ht => exact .inl (List.mem_append_left _ ht)

theorem edge_mem_visit (hc : g.Closed seen todo) (h : a ∈ g.visit seen todo) (he : g.Edge a b) :
    b ∈ g.visit seen todo := by
  induction seen, todo using visit.induct g with
  | case1 seen =>
    rw [visit] at h ⊢
    exact (hc a h).elim (fun h => nomatch h) fun hn => hn b he
  | case2 seen c todo hi =>
    rw [visit] at h ⊢
    exact hi hc.step h

theorem mem_closure : b ∈ g.closure start ↔ ∃ a ∈ start, g.Reach a b := by
  constructor
  case mp => exact reach_of_mem_visit (List.Subset.refl _)
  case mpr =>
    intro ⟨a, ha, hr⟩
    induction hr
    case refl => exact subset_visit ha
    case tail he hi => exact edge_mem_visit (fun _ h => .inl h) hi he

theorem mem_closure_next : b ∈ g.closure (g.next a) ↔ Relation.TransGen g.Edge a b := by
  rw [mem_closure, Relation.TransGen.head'_iff]
  rfl

end TargetGraph

-- A relation in which one element's successors are replaced.

namespace Relation

variable {α : Type} {R : α → α → Prop} {D : α → Prop} {x m y : α}

def Off (R : α → α → Prop) (x a b : α) : Prop :=
  a ≠ x ∧ R a b

def Rerouted (R : α → α → Prop) (x : α) (D : α → Prop) (a b : α) : Prop :=
  Off R x a b ∨ a = x ∧ D b

-- A path that takes one of the new successors takes the last of them at a point after which it takes no other.
theorem TransGen.of_rerouted (h : TransGen (Rerouted R x D) m y) :
    TransGen (Off R x) m y ∨ ReflTransGen (Off R x) m x ∧ ∃ d, D d ∧ ReflTransGen (Off R x) d y := by
  induction h
  case single b h =>
    obtain h | ⟨rfl, h⟩ := h
    · exact .inl (.single h)
    · exact .inr ⟨.refl, b, h, .refl⟩
  case tail b c _ h hi =>
    obtain h | ⟨rfl, h⟩ := h
    · obtain hi | ⟨hm, d, hd, hr⟩ := hi
      · exact .inl (hi.tail h)
      · exact .inr ⟨hm, d, hd, hr.tail h⟩
    · exact .inr ⟨hi.elim TransGen.to_reflTransGen And.left, c, h, .refl⟩

theorem TransGen.rerouted_of_off (h : TransGen (Off R x) m y) : TransGen (Rerouted R x D) m y :=
  TransGen.mono (fun _ _ => Or.inl) _ _ h

theorem transGen_rerouted :
    TransGen (Rerouted R x D) m y ↔
    TransGen (Off R x) m y ∨ ReflTransGen (Off R x) m x ∧ ∃ d, D d ∧ ReflTransGen (Off R x) d y := by
  constructor
  case mp => exact TransGen.of_rerouted
  case mpr =>
    intro h
    obtain h | ⟨hm, d, hd, hr⟩ := h
    · exact h.rerouted_of_off
    · have lift {a b : α} : ReflTransGen (Off R x) a b → ReflTransGen (Rerouted R x D) a b :=
        ReflTransGen.mono (fun _ _ => Or.inl) _ _
      exact .trans_right (lift hm) (.head' (.inr ⟨rfl, hd⟩) (lift hr))

end Relation

-- Depth-first search with one set of what was seen, to which every branch of the search adds, and with elements at which
-- it stops.

namespace TargetGraph

open Relation

variable {α : Type} [DecidableEq α] {g : TargetGraph α} {stop : α → Bool} {start : List α} {seen found more : Finset α}
variable {a b : α}

-- A step to an element at which the search does not stop.
def Free (g : TargetGraph α) (stop : α → Bool) (a b : α) : Prop :=
  g.Edge a b ∧ ¬ stop b

-- What a search from the given elements makes of the set of what was seen before.
structure Grown (g : TargetGraph α) (stop : α → Bool) (start : List α) (seen found : Finset α) : Prop where
  subset : seen ⊆ found
  starts : ∀ a ∈ start, ¬ stop a → a ∈ found
  closed : ∀ a ∈ found, a ∉ seen → ∀ b, g.Free stop a b → b ∈ found
  reach  : ∀ b ∈ found, b ∉ seen → ∃ a ∈ start, ¬ stop a ∧ ReflTransGen (g.Free stop) a b

namespace Grown

theorem nil : g.Grown stop [] seen seen where
  subset          := subset_rfl
  starts a ha     := absurd ha List.not_mem_nil
  closed a ha hn  := absurd ha hn
  reach b hb hn   := absurd hb hn

theorem known (h : a ∈ seen ∨ stop a) : g.Grown stop [a] seen seen where
  subset         := subset_rfl
  closed a ha hn := absurd ha hn
  reach b hb hn  := absurd hb hn
  starts b hb hs := by
    rw [List.mem_singleton.mp hb] at hs ⊢
    exact h.resolve_right hs

theorem cons (h : g.Grown stop [a] seen found) (hr : g.Grown stop start found more) :
    g.Grown stop (a :: start) seen more where
  subset := h.subset.trans hr.subset
  starts b hb hs := by
    obtain rfl | hb := List.mem_cons.mp hb
    case inl => exact hr.subset (h.starts _ List.mem_cons_self hs)
    case inr => exact hr.starts b hb hs
  closed b hb hn c hc := by
    by_cases hf : b ∈ found
    case pos => exact hr.subset (h.closed b hf hn c hc)
    case neg => exact hr.closed b hb hf c hc
  reach b hb hn := by
    by_cases hf : b ∈ found
    case pos =>
      obtain ⟨c, hc, hp⟩ := h.reach b hf hn
      exact ⟨c, List.mem_cons.mpr (.inl (List.mem_singleton.mp hc)), hp⟩
    case neg =>
      obtain ⟨c, hc, hp⟩ := hr.reach b hb hf
      exact ⟨c, List.mem_cons_of_mem _ hc, hp⟩

-- The search from an element that is new is the one from its successors.
theorem step (hn : ¬ (a ∈ seen ∨ stop a)) (h : g.Grown stop (g.next a) (insert a seen) found) :
    g.Grown stop [a] seen found where
  subset := (Finset.subset_insert a seen).trans h.subset
  starts b hb _ := by
    rw [List.mem_singleton.mp hb]
    exact h.subset (Finset.mem_insert_self a seen)
  closed b hb hs c hc := by
    by_cases he : b = a
    case pos => exact h.starts c (he ▸ hc.left) hc.right
    case neg => exact h.closed b hb (by simp [he, hs]) c hc
  reach b hb hs := by
    refine ⟨a, List.mem_cons_self, fun h => hn (.inr h), ?_⟩
    by_cases he : b = a
    case pos => rw [he]
    case neg =>
      obtain ⟨c, hc, hsc, hp⟩ := h.reach b hb (by simp [he, hs])
      exact .head ⟨hc, hsc⟩ hp

theorem mem (h : g.Grown stop start ∅ found) :
    b ∈ found ↔ ∃ a ∈ start, ¬ stop a ∧ ReflTransGen (g.Free stop) a b := by
  constructor
  case mp => exact fun hb => h.reach b hb (Finset.notMem_empty b)
  case mpr =>
    rintro ⟨a, ha, hs, hr⟩
    induction hr
    case refl       => exact h.starts a ha hs
    case tail he hi => exact h.closed _ hi (Finset.notMem_empty _) _ he

end Grown

theorem unseen_lt (ha : a ∈ g.targets) (hs : a ∉ seen) :
    (g.targets \ insert a seen).card < (g.targets \ seen).card := by
  refine Finset.card_lt_card (Finset.ssubset_iff_of_subset ?_ |>.mpr ⟨a, ?_, ?_⟩)
  · exact Finset.sdiff_subset_sdiff subset_rfl (Finset.subset_insert a seen)
  · simp [ha, hs]
  · simp

mutual

def reach (g : TargetGraph α) (stop : α → Bool) (a : α) (ha : a ∈ g.targets) (seen : Finset α) :
    { found : Finset α // g.Grown stop [a] seen found } :=
  if h : a ∈ seen ∨ stop a then ⟨seen, .known h⟩ else
  let rest := reachAll g stop (g.next a) (g.covers a) (insert a seen)
  ⟨rest.val, .step h rest.property⟩
termination_by ((g.targets \ seen).card, 0)
decreasing_by exact .left _ _ (unseen_lt ha fun hs => h (.inl hs))

def reachAll (g : TargetGraph α) (stop : α → Bool) (start : List α) (hs : ∀ a ∈ start, a ∈ g.targets)
    (seen : Finset α) : { found : Finset α // g.Grown stop start seen found } :=
  match start with
  | []         => ⟨seen, .nil⟩
  | a :: start =>
    let first := reach g stop a (hs a List.mem_cons_self) seen
    let rest := reachAll g stop start (fun b hb => hs b (List.mem_cons_of_mem a hb)) first.val
    ⟨rest.val, first.property.cons rest.property⟩
termination_by ((g.targets \ seen).card, start.length + 1)
decreasing_by
  · exact .right _ (by simp)
  · exact Prod.Lex.right' _ (Finset.card_le_card (Finset.sdiff_subset_sdiff subset_rfl first.property.subset)) (by simp)

end

theorem mem_reach {ha : a ∈ g.targets} :
    b ∈ (g.reach stop a ha ∅).val ↔ ¬ stop a ∧ ReflTransGen (g.Free stop) a b := by
  rw [(g.reach stop a ha ∅).property.mem]
  simp

theorem mem_reachAll {hs : ∀ a ∈ start, a ∈ g.targets} :
    b ∈ (g.reachAll stop start hs ∅).val ↔ ∃ a ∈ start, ¬ stop a ∧ ReflTransGen (g.Free stop) a b :=
  (g.reachAll stop start hs ∅).property.mem

end TargetGraph
