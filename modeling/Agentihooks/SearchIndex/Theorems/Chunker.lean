import Mathlib.Data.List.Induction
import Mathlib.Data.List.Nodup
import Mathlib.Data.List.Pairwise
import Mathlib.Data.List.Sort
import Agentihooks.SearchIndex.Chunker

-- The chunks of a source: each is made of events of one turn, and its id says which.

namespace SearchIndex

variable {events events' rest turn : List Event} {event : Event} {limit : ℕ} {unit : ChunkUnit} {c c' : Chunk}

section Turns

theorem addToTurn_concat {init : List (List Event)} :
    addToTurn (init ++ [turn]) event =
      if event.record.kind = .userText then init ++ [turn] ++ [[event]] else init ++ [turn ++ [event]] := by
  simp [addToTurn]

theorem turns_concat : turns (events ++ [event]) = addToTurn (turns events) event :=
  List.foldl_append

theorem flatten_addToTurn {turns : List (List Event)} : (addToTurn turns event).flatten = turns.flatten ++ [event] := by
  obtain rfl | ⟨init, turn, rfl⟩ := turns.eq_nil_or_concat
  · rfl
  · rw [List.concat_eq_append, addToTurn_concat]
    split <;> simp

theorem flatten_turns : (turns events).flatten = events := by
  induction events using List.reverseRecOn with
  | nil                       => rfl
  | append_singleton rest e h => rw [turns_concat, flatten_addToTurn, h]

theorem mem_of_mem_turn (ht : turn ∈ turns events) (he : event ∈ turn) : event ∈ events := by
  have hm : event ∈ (turns events).flatten := List.mem_flatten.mpr ⟨turn, ht, he⟩
  rwa [flatten_turns] at hm

-- Every turn has begun.
theorem turn_ne_nil (ht : turn ∈ turns events) : turn ≠ [] := by
  induction events using List.reverseRecOn generalizing turn with
  | nil                       => cases ht
  | append_singleton rest e h =>
    rw [turns_concat] at ht
    obtain hn | ⟨init, last, hl⟩ := (turns rest).eq_nil_or_concat
    · rw [hn] at ht
      simp only [addToTurn, List.getLast?_nil, List.mem_singleton] at ht
      simp [ht]
    · rw [List.concat_eq_append] at hl
      rw [hl, addToTurn_concat] at ht
      have hinit (t : List Event) (hm : t ∈ init) : t ≠ [] := h (by simp [hl, hm])
      have hlast : last ≠ [] := h (by simp [hl])
      split at ht
      · simp only [List.mem_append, List.mem_singleton] at ht
        obtain (hm | rfl) | rfl := ht
        · exact hinit turn hm
        · exact hlast
        · simp
      · simp only [List.mem_append, List.mem_singleton] at ht
        obtain hm | rfl := ht
        · exact hinit turn hm
        · simp

-- More events after those of a source only prolong its turns.
theorem turn_extends (hp : events <+: events') (ht : turn ∈ turns events) : ∃ turn' ∈ turns events', turn <+: turn' := by
  obtain ⟨rest, rfl⟩ := hp
  induction rest using List.reverseRecOn with
  | nil                       => exact ⟨turn, by simpa using ht, List.prefix_rfl⟩
  | append_singleton rest e h =>
    obtain ⟨turn', ht', hpre⟩ := h
    rw [← List.append_assoc, turns_concat]
    obtain hn | ⟨init, last, hl⟩ := (turns (events ++ rest)).eq_nil_or_concat
    · rw [hn] at ht'
      cases ht'
    · rw [List.concat_eq_append] at hl
      rw [hl] at ht' ⊢
      rw [addToTurn_concat]
      simp only [List.mem_append, List.mem_singleton] at ht'
      split
      · obtain hm | rfl := ht'
        · exact ⟨turn', by simp [hm], hpre⟩
        · exact ⟨turn', by simp, hpre⟩
      · obtain hm | rfl := ht'
        · exact ⟨turn', by simp [hm], hpre⟩
        · exact ⟨turn' ++ [e], by simp, hpre.trans (List.prefix_append _ _)⟩

theorem flatten_addToPart {parts : List (List Event × ℕ)} :
    ((addToPart limit parts event).map Prod.fst).flatten = (parts.map Prod.fst).flatten ++ [event] := by
  obtain rfl | ⟨init, last, rfl⟩ := parts.eq_nil_or_concat
  · rfl
  · simp only [addToPart, List.concat_eq_append, List.getLast?_append, List.getLast?_singleton, Option.some_or,
      List.dropLast_concat]
    split <;> simp

theorem flatten_parts : (parts limit events).flatten = events := by
  have h (ps : List (List Event × ℕ)) :
      ((events.foldl (addToPart limit) ps).map Prod.fst).flatten = (ps.map Prod.fst).flatten ++ events := by
    induction events generalizing ps with
    | nil            => simp
    | cons e rest ih => simp [ih, flatten_addToPart]
  simpa [parts] using h []

theorem addToPart_ne_nil {parts : List (List Event × ℕ)} (h : ∀ part ∈ parts, part.1 ≠ []) :
    ∀ part ∈ addToPart limit parts event, part.1 ≠ [] := by
  intro part hp
  obtain rfl | ⟨init, last, rfl⟩ := parts.eq_nil_or_concat
  · simp only [addToPart, List.getLast?_nil, List.mem_singleton] at hp
    simp [hp]
  · simp only [addToPart, List.concat_eq_append, List.getLast?_append, List.getLast?_singleton, Option.some_or,
      List.dropLast_concat] at hp
    split at hp
    · simp only [List.mem_append, List.mem_singleton] at hp
      obtain hm | rfl := hp
      · exact h part (by simp [hm])
      · simp
    · simp only [List.mem_append, List.mem_singleton] at hp
      obtain (hm | rfl) | rfl := hp
      · exact h part (by simp [hm])
      · exact h part (by simp)
      · simp

theorem part_ne_nil {part : List Event} (hp : part ∈ parts limit events) : part ≠ [] := by
  have h (es : List Event) (ps : List (List Event × ℕ)) (hps : ∀ part ∈ ps, part.1 ≠ []) :
      ∀ part ∈ es.foldl (addToPart limit) ps, part.1 ≠ [] := by
    induction es generalizing ps with
    | nil            => exact hps
    | cons e rest ih => exact ih _ (addToPart_ne_nil hps)
  obtain ⟨item, hi, rfl⟩ := List.mem_map.mp hp
  exact h events [] (List.forall_mem_nil _) item hi

-- The pairs that have been put together from some events.
def PairsOf (events : List Event) (pairs : List (String × List Event)) : Prop :=
  ∀ pair ∈ pairs, pair.2 ≠ [] ∧ ∀ event ∈ pair.2, event ∈ events

theorem PairsOf.add {pairs : List (String × List Event)} (h : PairsOf events pairs) (he : event ∈ events) :
    PairsOf events (addToPair pairs event) := by
  intro pair hp
  simp only [addToPair] at hp
  split at hp
  · obtain ⟨old, hold, rfl⟩ := List.mem_map.mp hp
    obtain ⟨hne, hmem⟩ := h old hold
    split
    · refine ⟨by simp, fun e hm => ?_⟩
      obtain hm | hm := List.mem_append.mp hm
      · exact hmem e hm
      · rwa [List.mem_singleton.mp hm]
    · exact ⟨hne, hmem⟩
  · obtain hm | hm := List.mem_append.mp hp
    · exact h pair hm
    · rw [List.mem_singleton.mp hm]
      exact ⟨by simp, by simpa using he⟩

theorem pairsOf_tools {pair : List Event} (hp : pair ∈ tools events) : pair ≠ [] ∧ ∀ event ∈ pair, event ∈ events := by
  have h (es : List Event) (hes : ∀ e ∈ es, e ∈ events) (pairs : List (String × List Event)) (hps : PairsOf events pairs) :
      PairsOf events (es.foldl addToPair pairs) := by
    induction es generalizing pairs with
    | nil          => exact hps
    | cons e es ih =>
      exact ih (fun x hx => hes x (List.mem_cons_of_mem _ hx)) _ (hps.add (hes e List.mem_cons_self))
  obtain ⟨item, hi, rfl⟩ := List.mem_map.mp hp
  exact h _ (fun e he => (List.mem_filter.mp he).left) [] (List.forall_mem_nil _) item hi

end Turns

section Chunks

-- What a chunk says about its tool.
def toolOf : ChunkKind → List Event → Option Tool
  | .turn, _      => none
  | .tool, events => some (tool events)

-- A chunk of a unit, and the events of its turn that it is made of.
inductive MadeOf (unit : ChunkUnit) (turn : List Event) (c : Chunk) : Prop
  | intro (kind : ChunkKind) (events : List Event) : events ≠ [] → (∀ event ∈ events, event ∈ turn) →
      c = chunk unit kind events (toolOf kind events) → MadeOf unit turn c

theorem madeOf_of_mem (hc : c ∈ turnChunks unit turn) : MadeOf unit turn c := by
  obtain hc | hc := List.mem_append.mp hc
  · obtain ⟨part, hp, rfl⟩ := List.mem_map.mp hc
    refine .intro .turn part (part_ne_nil hp) (fun e he => ?_) rfl
    have hm : e ∈ (parts unit.policy.maxChars (turn.filter fun event => event.record.kind.narrative.isSome)).flatten :=
      List.mem_flatten.mpr ⟨part, hp, he⟩
    rw [flatten_parts] at hm
    exact (List.mem_filter.mp hm).left
  · obtain ⟨pair, hp, rfl⟩ := List.mem_map.mp hc
    obtain ⟨hne, hmem⟩ := pairsOf_tools hp
    exact .intro .tool pair hne hmem rfl

variable {policy policy' : Policy} {session generation : String} {parent : Option String}

def sorted (events : List Event) : List Event :=
  events.insertionSort fun a b => a.sequence ≤ b.sequence

-- The first sequence of a turn.
def first (turn : List Event) : ℕ :=
  (turn.head?.map Event.sequence).getD 0

theorem mem_chunkEvents : c ∈ chunkEvents policy session parent generation events ↔
    ∃ turn ∈ turns (sorted events), c ∈ turnChunks ⟨policy, session, parent, generation, first turn⟩ turn := by
  simp [chunkEvents, List.mem_insertionSort, List.mem_flatMap, sorted, first]

theorem sorted_eq (h : events.Pairwise fun a b => a.sequence < b.sequence) : sorted events = events :=
  (h.imp Nat.le_of_lt).insertionSort_eq

-- Every chunk of a source, and the events of the source that it is made of.
theorem spelled_of_mem (hc : c ∈ chunkEvents policy session parent generation events) :
    c.id.version = policy.version ∧ c.id.session = session ∧ c.id.generation = generation ∧
    ∃ made : List Event, made.map Event.sequence = c.id.sequences ∧ (∀ event ∈ made, event ∈ events) ∧
      c.contentHash = clip policy.maxChars (text made) := by
  obtain ⟨turn, ht, hm⟩ := mem_chunkEvents.mp hc
  obtain ⟨kind, made, -, hmem, rfl⟩ := madeOf_of_mem hm
  refine ⟨rfl, rfl, rfl, made, rfl, fun event he => ?_, rfl⟩
  have hs : event ∈ sorted events := mem_of_mem_turn ht (hmem event he)
  exact (List.mem_insertionSort _).mp hs

theorem nodup_sequences (h : events.Pairwise fun a b => a.sequence < b.sequence) : (events.map Event.sequence).Nodup :=
  List.pairwise_map.mpr (h.imp Nat.ne_of_lt)

-- Events of a source are known by their sequences.
theorem eq_of_sequences {made made' : List Event} (h : events.Pairwise fun a b => a.sequence < b.sequence)
    (hm : ∀ event ∈ made, event ∈ events) (hm' : ∀ event ∈ made', event ∈ events)
    (hs : made.map Event.sequence = made'.map Event.sequence) : made = made' := by
  induction made generalizing made' with
  | nil            => exact (List.map_eq_nil_iff.mp hs.symm).symm
  | cons e made ih =>
    cases made' with
    | nil           => cases hs
    | cons e' made' =>
      obtain ⟨he, hrest⟩ := List.cons.inj hs
      have heq : e = e' :=
        List.inj_on_of_nodup_map (nodup_sequences h) (hm e List.mem_cons_self) (hm' e' List.mem_cons_self) he
      rw [heq, ih (fun x hx => hm x (List.mem_cons_of_mem _ hx)) (fun x hx => hm' x (List.mem_cons_of_mem _ hx)) hrest]

-- An event has one turn.
theorem turn_unique {turn turn' : List Event} (h : events.Nodup) (ht : turn ∈ turns events) (ht' : turn' ∈ turns events)
    (he : event ∈ turn) (he' : event ∈ turn') : turn = turn' := by
  rw [← @flatten_turns events, List.nodup_flatten] at h
  by_contra hne
  have hsymm : Std.Symm (List.Disjoint (α := Event)) := ⟨fun _ _ hd => hd.symm⟩
  have hd : List.Disjoint turn turn' := h.right.forall ht ht' hne
  exact hd he he'

-- Chunks of one id, of two readings of a source of which one goes on where the other ends, are one.
theorem chunk_eq_of_id (hs : events'.Pairwise fun a b => a.sequence < b.sequence) (hp : events <+: events')
    (hc : c ∈ chunkEvents policy session parent generation events)
    (hc' : c' ∈ chunkEvents policy session parent generation events') (hid : c.id = c'.id) : c = c' := by
  obtain ⟨turn, ht, hm⟩ := mem_chunkEvents.mp hc
  obtain ⟨turn', ht', hm'⟩ := mem_chunkEvents.mp hc'
  rw [sorted_eq (hs.sublist hp.sublist)] at ht
  rw [sorted_eq hs] at ht'
  obtain ⟨kind, made, hne, hmade, rfl⟩ := madeOf_of_mem hm
  obtain ⟨kind', made', -, hmade', rfl⟩ := madeOf_of_mem hm'
  simp only [chunk, ChunkId.mk.injEq, true_and] at hid
  obtain ⟨rfl, hseq⟩ := hid
  obtain rfl : made = made' :=
    eq_of_sequences hs (fun e he => hp.subset (mem_of_mem_turn ht (hmade e he))) (fun e he => mem_of_mem_turn ht' (hmade' e he)) hseq
  -- Its turn has become the other one, which begins with the same event.
  obtain ⟨longer, hl, hpre⟩ := turn_extends hp ht
  obtain ⟨e, he⟩ := List.exists_mem_of_ne_nil made hne
  obtain rfl : longer = turn' := turn_unique (hs.imp fun h => by grind) hl ht' (hpre.subset (hmade e he)) (hmade' e he)
  obtain ⟨head, tail, rfl⟩ := List.exists_cons_of_ne_nil (turn_ne_nil ht)
  obtain ⟨rest, rfl⟩ := hpre
  rfl

end Chunks

end SearchIndex
