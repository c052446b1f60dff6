import Agentihooks.Fencing.ArchiveChunks

-- What a reference stands for is the list of the chunks down to the empty one. Chunks are only ever added, hence a
-- reference stands for the same rows forever.

namespace ArchiveChunks

variable {δ ρ : Type} [DecidableEq δ]

-- A chunk shadows the rows it has and those it removes.
def shadow (content : Content ρ) (value : String → Option ρ) (key : String) : Option ρ :=
  (content.rows.lookup key).or (if key ∈ content.removed then none else value key)

inductive Chain (chunks : Chunks δ ρ) : Option δ → List (δ × Chunk δ ρ) → Prop
  | root : Chain chunks none []
  | link {reference : δ} {chunk : Chunk δ ρ} {l : List (δ × Chunk δ ρ)} :
    chunks.lookup reference = some chunk → Chain chunks chunk.parent l →
      Chain chunks (some reference) ((reference, chunk) :: l)

def value (l : List (δ × Chunk δ ρ)) : String → Option ρ :=
  l.foldr (fun x => shadow x.2.toContent) fun _ => none

def Extends (chunks chunks' : Chunks δ ρ) : Prop :=
  ∀ reference chunk, chunks.lookup reference = some chunk → chunks'.lookup reference = some chunk

section Chains

variable {chunks chunks' : Chunks δ ρ} {reference : Option δ} {l l' : List (δ × Chunk δ ρ)} {key : String}

theorem Chain.grow (h : Chain chunks reference l) (he : Extends chunks chunks') : Chain chunks' reference l := by
  induction h
  case root         => exact .root
  case link hl _ hi => exact .link (he _ _ hl) hi

theorem Chain.unique (h : Chain chunks reference l) (h' : Chain chunks reference l') : l = l' := by
  induction h generalizing l'
  case root =>
    cases h'
    rfl
  case link hl _ hi =>
    cases h'
    case link h' hl' =>
      rw [hl, Option.some_inj] at hl'
      subst hl'
      rw [hi h']

-- A chunk of a chain begins the rest of it.
theorem Chain.suffix (h : Chain chunks reference l) {x : δ × Chunk δ ρ} (hx : x ∈ l) :
    ∃ l', Chain chunks (some x.1) l' ∧ l' <:+ l := by
  induction h
  case root => cases hx
  case link reference chunk l hl hc hi =>
    cases hx
    case head => exact ⟨_, .link hl hc, List.suffix_rfl⟩
    case tail hx =>
      obtain ⟨l', hl', hs⟩ := hi hx
      exact ⟨l', hl', hs.trans (List.suffix_cons _ _)⟩

-- The parents never lead back: the rest of a chain is shorter than the chain.
theorem Chain.nodup (h : Chain chunks reference l) : (l.map Prod.fst).Nodup := by
  induction h
  case root => exact List.nodup_nil
  case link reference chunk l hl hc hi =>
    rw [List.map_cons, List.nodup_cons]
    refine ⟨fun hm => ?_, hi⟩
    obtain ⟨x, hx, he⟩ := List.mem_map.mp hm
    obtain ⟨l', hl', hs⟩ := hc.suffix hx
    rw [he] at hl'
    have hle := hs.length_le
    rw [hl'.unique (.link hl hc), List.length_cons] at hle
    omega

theorem Chain.mem_keys (h : Chain chunks reference l) {x : δ × Chunk δ ρ} (hx : x ∈ l) : x.1 ∈ chunks.keys := by
  obtain ⟨l', hl', _⟩ := h.suffix hx
  cases hl'
  case link hl _ => exact KeyTable.mem_keys_iff.mpr (by simp [hl])

theorem Chain.length_le (h : Chain chunks reference l) : l.length ≤ chunks.keys.length := by
  have hs : l.map Prod.fst ⊆ chunks.keys := by
    intro reference hm
    obtain ⟨x, hx, rfl⟩ := List.mem_map.mp hm
    exact h.mem_keys hx
  simpa using (List.subperm_of_subset h.nodup hs).length_le

omit [DecidableEq δ] in
theorem lookup_unseen {seen : List String} {rows : Rows ρ} {chunk : Chunk δ ρ} :
    (unseen seen rows chunk).lookup key =
      if key ∈ seen then rows.lookup key else (chunk.rows.lookup key).or (rows.lookup key) := by
  have hf (l : List (String × ρ)) (rows : Rows ρ) (hn : (l.map Prod.fst).Nodup) :
      (l.foldl (fun rows x => if x.1 ∈ seen then rows else rows.insert x.1 x.2) rows).lookup key =
        if key ∈ seen then rows.lookup key else (l.lookup key).or (rows.lookup key) := by
    induction l generalizing rows
    case nil => simp
    case cons x l hi =>
      obtain ⟨j, row⟩ := x
      rw [List.map_cons, List.nodup_cons] at hn
      rw [List.foldl_cons, hi _ hn.right, List.lookup_cons]
      by_cases hk : key = j
      case pos =>
        subst hk
        simp only [beq_self_eq_true, KeyTable.lookup_eq_none_of_not_mem hn.left]
        split_ifs <;> simp
      case neg =>
        have hb : (key == j) = false := by simpa using hk
        simp only [hb]
        split_ifs <;> simp [hk]
  rw [unseen, hf _ _ KeyTable.nodup_toList, KeyTable.lookup_toList]

omit [DecidableEq δ] in
theorem lookup_unseen_eq_none {seen : List String} {rows : Rows ρ} {chunk : Chunk δ ρ}
    (hr : ∀ key, key ∉ seen → rows.lookup key = none) (h : key ∉ seen ++ chunk.rows.keys ++ chunk.removed) :
    (unseen seen rows chunk).lookup key = none := by
  simp only [List.mem_append, not_or, KeyTable.mem_keys_iff, not_not] at h
  rw [lookup_unseen, if_neg h.left.left, h.left.right, hr key h.left.left]
  rfl

omit [DecidableEq δ] in
-- One chunk on, what was seen and what is still to come are the same rows together.
theorem ite_unseen {seen : List String} {rows : Rows ρ} {chunk : Chunk δ ρ} {v : String → Option ρ}
    (hr : ∀ key, key ∉ seen → rows.lookup key = none) :
    (if key ∈ seen ++ chunk.rows.keys ++ chunk.removed then (unseen seen rows chunk).lookup key else v key) =
      if key ∈ seen then rows.lookup key else shadow chunk.toContent v key := by
  rw [lookup_unseen, shadow]
  simp only [List.mem_append, KeyTable.mem_keys_iff]
  by_cases hs : key ∈ seen
  case pos => simp [hs]
  case neg =>
    cases hc : chunk.rows.lookup key
    case none     => simp [hs, hr key hs]
    case some row => simp [hs]

-- With enough fuel the loop ends, and has the rows of the chain where it had seen nothing before.
theorem Chain.follow (h : Chain chunks reference l) {fuel : ℕ} (hf : l.length < fuel) {seen : List String}
    {rows : Rows ρ} (hr : ∀ key, key ∉ seen → rows.lookup key = none) :
    ∃ found, follow chunks fuel reference seen rows = some (.ok found) ∧
      ∀ key, found.lookup key = if key ∈ seen then rows.lookup key else value l key := by
  induction h generalizing fuel seen rows
  case root =>
    obtain ⟨n, rfl⟩ := Nat.exists_eq_succ_of_ne_zero (by omega : fuel ≠ 0)
    refine ⟨rows, rfl, fun key => ?_⟩
    split_ifs with hk
    case pos => rfl
    case neg => exact hr key hk
  case link reference chunk l hl _ hi =>
    obtain ⟨n, rfl⟩ := Nat.exists_eq_succ_of_ne_zero (by omega : fuel ≠ 0)
    obtain ⟨found, hfound, hv⟩ := hi (Nat.lt_of_succ_lt_succ hf) fun key => lookup_unseen_eq_none hr
    refine ⟨found, ?_, fun key => ?_⟩
    case refine_1 =>
      rw [ArchiveChunks.follow, hl]
      exact hfound
    case refine_2 =>
      rw [hv, ite_unseen hr]
      rfl

theorem Chain.archiveRows (h : Chain chunks reference l) :
    ∃ found, archiveRows chunks reference = some (.ok found) ∧ ∀ key, found.lookup key = value l key := by
  have he : ∀ key : String, key ∉ ([] : List String) → (∅ : Rows ρ).lookup key = none := fun _ _ => rfl
  obtain ⟨found, hf, hv⟩ := h.follow (Nat.lt_succ_of_le h.length_le) he
  exact ⟨found, hf, fun key => by simpa using hv key⟩

end Chains

section Contents

variable {archive previous : Rows ρ} {changed keys : List String} {key : String} {v : String → Option ρ}

omit [DecidableEq δ]

theorem mem_batches : (∃ b ∈ batches changed, key ∈ b) ↔ key ∈ changed := by
  simp only [batches, List.mem_map, List.mem_range]
  constructor
  case mp =>
    rintro ⟨_, ⟨i, _, rfl⟩, hk⟩
    exact List.drop_subset _ _ (List.take_subset _ _ hk)
  case mpr =>
    intro hk
    obtain ⟨j, hj, rfl⟩ := List.mem_iff_getElem.mp hk
    refine ⟨_, ⟨j / 64, by omega, rfl⟩, ?_⟩
    rw [List.mem_iff_getElem]
    have hd : 64 * (j / 64) + (j - 64 * (j / 64)) = j := by omega
    refine ⟨j - 64 * (j / 64), ?_, ?_⟩
    · rw [List.length_take, List.length_drop]
      omega
    · rw [List.getElem_take, List.getElem_drop]
      simp only [hd]

theorem lookup_batch (hn : keys.Nodup) :
    (batch archive keys).rows.lookup key = if key ∈ keys then archive.lookup key else none := by
  have hk : (keys.filterMap fun key => (archive.lookup key).map fun row => (key, row)).map Prod.fst =
      keys.filter fun key => (archive.lookup key).isSome := by
    clear hn
    induction keys
    case nil => rfl
    case cons k keys hi =>
      rw [List.filterMap_cons, List.filter_cons]
      cases archive.lookup k <;> simp [hi]
  have hm : ((keys.filterMap fun key => (archive.lookup key).map fun row => (key, row)).map Prod.fst).Nodup :=
    hk ▸ hn.filter _
  rw [batch, KeyTable.lookup_ofList hm]
  ext row
  rw [JsonValue.lookup_eq_some_iff_mem hm, List.mem_filterMap]
  constructor
  case mp =>
    rintro ⟨k, hk, hr⟩
    rw [Option.map_eq_some_iff] at hr
    obtain ⟨row', hr, he⟩ := hr
    cases he
    rw [if_pos hk, hr]
  case mpr =>
    intro hr
    split_ifs at hr with hk
    exact ⟨key, hk, by rw [hr, Option.map_some]⟩

theorem foldl_shadow_batch {bs : List (List String)} (hn : ∀ b ∈ bs, b.Nodup)
    (hk : ∀ b ∈ bs, ∀ key ∈ b, archive.lookup key ≠ none) :
    ((bs.map (batch archive)).foldl (fun v content => shadow content v) v) key =
      if ∃ b ∈ bs, key ∈ b then archive.lookup key else v key := by
  induction bs generalizing v
  case nil => simp
  case cons b bs hi =>
    rw [List.map_cons, List.foldl_cons,
      hi (fun b hb => hn b (List.mem_cons_of_mem _ hb)) (fun b hb => hk b (List.mem_cons_of_mem _ hb))]
    simp only [shadow, lookup_batch (hn b List.mem_cons_self)]
    by_cases hb : key ∈ b
    case neg => simp [hb, batch]
    case pos =>
      obtain ⟨row, hr⟩ := Option.ne_none_iff_exists'.mp (hk b List.mem_cons_self key hb)
      simp [hb, hr]

variable [DecidableEq ρ]

-- The chunks of a new archive, on whatever stands for the old one, stand for the new one.
theorem foldl_shadow_contents (hp : ∀ key, previous.lookup key = v key) :
    ((contents previous archive).foldl (fun v content => shadow content v) v) key = archive.lookup key := by
  have hn : ∀ b ∈ batches (archive.keys.filter fun key => previous.lookup key ≠ archive.lookup key), b.Nodup := by
    intro b hb
    obtain ⟨i, _, rfl⟩ := List.mem_map.mp hb
    exact ((archive.keys_nodup.filter _).sublist (List.drop_sublist _ _)).sublist (List.take_sublist _ _)
  have hk : ∀ b ∈ batches (archive.keys.filter fun key => previous.lookup key ≠ archive.lookup key), ∀ key ∈ b,
      archive.lookup key ≠ none := by
    intro b hb key hm
    have hc := mem_batches.mp ⟨b, hb, hm⟩
    exact KeyTable.mem_keys_iff.mp (List.mem_filter.mp hc).left
  rw [contents, List.foldl_append, foldl_shadow_batch hn hk]
  simp only [mem_batches, List.mem_filter, decide_eq_true_eq]
  have hmem : key ∈ (previous.keys.filter fun key => key ∉ archive).mergeSort (fun x y => decide (x ≤ y)) ↔
      previous.lookup key ≠ none ∧ archive.lookup key = none := by
    rw [List.mem_mergeSort, List.mem_filter, KeyTable.mem_keys_iff, decide_eq_true_eq, AList.lookup_eq_none]
  by_cases ha : archive.lookup key = none
  case pos =>
    rw [if_neg (by simp [KeyTable.mem_keys_iff, ha]), ha]
    split_ifs with hr
    case pos =>
      by_contra hv
      have hm := hmem.mpr ⟨(hp key).trans_ne hv, ha⟩
      rw [hr] at hm
      cases hm
    case neg =>
      simp only [List.foldl_cons, List.foldl_nil, shadow, AList.lookup_empty, Option.none_or, hmem]
      split_ifs with hv
      case pos => rfl
      case neg =>
        rw [← hp]
        by_contra hne
        exact hv ⟨hne, ha⟩
  case neg =>
    by_cases he : previous.lookup key = archive.lookup key
    case neg => rw [if_pos ⟨KeyTable.mem_keys_iff.mpr ha, he⟩]
    case pos =>
      rw [if_neg (by simp [he])]
      split_ifs
      case pos => exact (hp key).symm.trans he
      case neg =>
        simp only [List.foldl_cons, List.foldl_nil, shadow, AList.lookup_empty, Option.none_or, hmem, ha, and_false,
          if_false]
        exact (hp key).symm.trans he

end Contents

section Runs

variable {s : System δ ρ} {chunks chunks' : Chunks δ ρ}

theorem Extends.refl : Extends chunks chunks :=
  fun _ _ h => h

-- The archive that a document has, inline and outside.
def Has (chunks : Chunks δ ρ) (doc : Doc δ ρ) (archive : Rows ρ) : Prop :=
  ∃ l, Chain chunks doc.reference.join l ∧ ∀ key, (doc.inline.lookup key).or (value l key) = archive.lookup key

-- A plan comes to its archive once its chunks are saved.
structure Leads (chunks : Chunks δ ρ) (plan : Plan δ ρ) : Prop where
  chain  : ∃ l, Chain chunks plan.reference.join l ∧ ∀ key, (plan.inline.lookup key).or
    (plan.remaining.foldl (fun v content => shadow content v) (value l) key) = plan.archive.lookup key
  inline : plan.reference ≠ none → plan.inline = ∅
  absent : plan.reference = none → plan.remaining = []

-- A writer that nobody overtook has the document, and changes the archive that was left last.
structure Writes (chunks : Chunks δ ρ) (doc : Doc δ ρ) (left : Rows ρ) (w : Writer δ ρ) : Prop where
  le    : w.doc.revision ≤ doc.revision
  same  : w.doc.revision = doc.revision → w.doc = doc
  chain : ∃ l, Chain chunks w.doc.reference.join l
  plan  : ∀ plan, w.plan = some plan → Leads chunks plan ∧ (w.doc.revision = doc.revision →
    ∃ external : Rows ρ, (∀ key, (w.doc.inline ∪ external).lookup key = left.lookup key) ∧
      plan.archive = w.change.leaves w.doc.inline external)

-- A reader has seen a part of the archive there was, and is at a chain with the rest.
structure Reads (chunks : Chunks δ ρ) (r : Reader δ ρ) : Prop where
  seen  : ∀ key, key ∉ r.seen → r.rows.lookup key = none
  chain : ∃ l, Chain chunks r.reference l ∧
    ∀ key, (if key ∈ r.seen then r.rows.lookup key else value l key) = r.left.lookup key

structure Sound (s : System δ ρ) : Prop where
  has     : Has s.chunks s.doc s.left
  inline  : s.doc.reference ≠ none → s.doc.inline = ∅
  writers : ∀ i w, s.writers i = some w → Writes s.chunks s.doc s.left w
  readers : ∀ i r, s.readers i = some r → Reads s.chunks r

theorem Has.grow {doc : Doc δ ρ} {archive : Rows ρ} (h : Has chunks doc archive) (he : Extends chunks chunks') :
    Has chunks' doc archive := by
  obtain ⟨l, hl, hv⟩ := h
  exact ⟨l, hl.grow he, hv⟩

theorem Leads.grow {plan : Plan δ ρ} (h : Leads chunks plan) (he : Extends chunks chunks') : Leads chunks' plan := by
  obtain ⟨l, hl, hv⟩ := h.chain
  exact ⟨⟨l, hl.grow he, hv⟩, h.inline, h.absent⟩

theorem Reads.grow {r : Reader δ ρ} (h : Reads chunks r) (he : Extends chunks chunks') : Reads chunks' r := by
  obtain ⟨l, hl, hv⟩ := h.chain
  exact ⟨h.seen, l, hl.grow he, hv⟩

theorem Writes.grow {doc : Doc δ ρ} {left : Rows ρ} {w : Writer δ ρ} (h : Writes chunks doc left w)
    (he : Extends chunks chunks') : Writes chunks' doc left w := by
  obtain ⟨l, hl⟩ := h.chain
  refine ⟨h.le, h.same, ⟨l, hl.grow he⟩, fun plan hp => ?_⟩
  obtain ⟨hlead, hleft⟩ := h.plan plan hp
  exact ⟨hlead.grow he, hleft⟩

-- Another writer's commit leaves no writer as the next one.
theorem Writes.overtaken {doc doc' : Doc δ ρ} {left left' : Rows ρ} {w : Writer δ ρ} (h : Writes chunks doc left w)
    (hr : doc'.revision = doc.revision + 1) : Writes chunks doc' left' w := by
  have hle := h.le
  exact ⟨by omega, fun _ => by omega, h.chain, fun plan hp => ⟨(h.plan plan hp).left, fun _ => by omega⟩⟩

variable [DecidableEq ρ] {sha256 : Chunk δ ρ → δ}

theorem saveChunk_ok {chunk : Chunk δ ρ} (h : saveChunk sha256 chunks chunk = some chunks') :
    Extends chunks chunks' ∧ chunks'.lookup (sha256 chunk) = some chunk := by
  rw [saveChunk] at h
  cases hl : chunks.lookup (sha256 chunk)
  case none =>
    rw [hl] at h
    cases h
    refine ⟨fun reference found hf => ?_, AList.lookup_insert _⟩
    have hn : reference ≠ sha256 chunk := by
      rintro rfl
      rw [hl] at hf
      cases hf
    rw [AList.lookup_insert_ne hn, hf]
  case some found =>
    simp only [hl] at h
    split_ifs at h with he
    cases h
    exact ⟨.refl, he ▸ hl⟩

theorem leads_externalize {reference : Option (Option δ)} {previous archive : Rows ρ} {l : List (δ × Chunk δ ρ)}
    (hl : Chain chunks reference.join l) (hp : ∀ key, previous.lookup key = value l key) :
    Leads chunks (externalize reference previous archive) := by
  cases reference
  case none =>
    cases hl
    constructor
    case chain =>
      refine ⟨[], .root, fun key => ?_⟩
      simp [externalize, value]
    case inline => exact fun h => absurd rfl h
    case absent => exact fun _ => rfl
  case some reference =>
    constructor
    case chain =>
      refine ⟨l, hl, fun key => ?_⟩
      simp only [externalize, AList.lookup_empty, Option.none_or]
      exact foldl_shadow_contents hp
    case inline => exact fun _ => rfl
    case absent => exact fun h => by cases h

theorem leads_planned {doc : Doc δ ρ} {external : Rows ρ} {change : Change ρ} {l : List (δ × Chunk δ ρ)}
    (hl : Chain chunks doc.reference.join l) (hv : ∀ key, external.lookup key = value l key) :
    Leads chunks (planned doc external change) := by
  have hroot : Chain chunks (none : Option (Option δ)).join [] := .root
  cases change
  case plain f =>
    simp only [planned, Change.leaves]
    split_ifs with hf
    case pos =>
      cases hr : doc.reference
      case some reference => exact leads_externalize (hr ▸ hl) hv
      case none =>
        rw [hr] at hl
        cases hl
        constructor
        case chain =>
          refine ⟨[], .root, fun key => ?_⟩
          rw [KeyTable.lookup_union, hv]
          rfl
        case inline => exact fun h => absurd rfl h
        case absent => exact fun _ => rfl
    case neg =>
      rw [not_not] at hf
      constructor
      case chain =>
        refine ⟨l, hl, fun key => ?_⟩
        simp [hf, hv]
      case inline => exact fun _ => rfl
      case absent => exact fun _ => rfl
  case whole f => exact leads_externalize hl hv
  case migrate =>
    have hj : Chain chunks (some doc.reference.join).join l := hl
    exact leads_externalize hj hv
  case replacement archive outside =>
    refine leads_externalize (l := []) ?_ fun key => rfl
    cases outside
    case false => exact .root
    case true  => exact .root

namespace Sound

omit [DecidableEq ρ] in
theorem write (h : Sound s) (i : ℕ) {w : Option (Writer δ ρ)} (hw : ∀ w', w = some w' → Writes s.chunks s.doc s.left w') :
    Sound (s.write i w) where
  has     := h.has
  inline  := h.inline
  readers := h.readers
  writers := by
    intro j w' hj
    by_cases hi : j = i
    case pos =>
      subst hi
      have hu : Function.update s.writers j w j = some w' := hj
      rw [Function.update_self] at hu
      exact hw w' hu
    case neg => exact h.writers j w' ((Function.update_of_ne hi ..).symm.trans hj)

omit [DecidableEq ρ] in
theorem read (h : Sound s) (i : ℕ) {r : Option (Reader δ ρ)} (hr : ∀ r', r = some r' → Reads s.chunks r') :
    Sound (s.read i r) where
  has     := h.has
  inline  := h.inline
  writers := h.writers
  readers := by
    intro j r' hj
    by_cases hi : j = i
    case pos =>
      subst hi
      have hu : Function.update s.readers j r j = some r' := hj
      rw [Function.update_self] at hu
      exact hr r' hu
    case neg => exact h.readers j r' ((Function.update_of_ne hi ..).symm.trans hj)

omit [DecidableEq ρ] in
theorem grow (h : Sound s) (he : Extends s.chunks chunks') : Sound { s with chunks := chunks' } where
  has     := h.has.grow he
  inline  := h.inline
  writers := fun i w hw => (h.writers i w hw).grow he
  readers := fun i r hr => (h.readers i r hr).grow he

omit [DecidableEq ρ] in
theorem load (h : Sound s) {i : ℕ} {change : Change ρ} : Sound (s.write i (some ⟨s.doc, change, none⟩)) := by
  refine h.write i fun w hw => ?_
  cases hw
  obtain ⟨l, hl, _⟩ := h.has
  exact ⟨le_rfl, fun _ => rfl, ⟨l, hl⟩, fun plan hp => by cases hp⟩

theorem run (h : Sound s) {i : ℕ} {doc : Doc δ ρ} {change : Change ρ} {external : Rows ρ}
    (hw : s.writers i = some ⟨doc, change, none⟩)
    (ha : archiveRows s.chunks doc.reference.join = some (.ok external)) :
    Sound (s.write i (some ⟨doc, change, some (planned doc external change)⟩)) := by
  refine h.write i fun w hw' => ?_
  cases hw'
  have hwr := h.writers i _ hw
  obtain ⟨l, hl⟩ := hwr.chain
  obtain ⟨found, hf, hv⟩ := hl.archiveRows
  rw [ha, Option.some_inj, Except.ok.injEq] at hf
  subst hf
  refine ⟨hwr.le, hwr.same, ⟨l, hl⟩, fun plan hp => ?_⟩
  cases hp
  refine ⟨leads_planned hl hv, fun hs => ⟨external, fun key => ?_, ?_⟩⟩
  case refine_1 =>
    have hd : doc = s.doc := hwr.same hs
    obtain ⟨l', hl', hleft⟩ := h.has
    rw [← hd] at hl' hleft
    rw [KeyTable.lookup_union, hv, ← hleft, hl.unique hl']
  case refine_2 =>
    cases change
    case plain f =>
      rw [planned]
      dsimp only
      split_ifs
      case pos => cases doc.reference <;> rfl
      case neg => rfl
    case whole f =>
      rw [planned]
      cases doc.reference <;> rfl
    case migrate => rfl
    case replacement archive outside => cases outside <;> rfl

theorem save (h : Sound s) {i : ℕ} {doc : Doc δ ρ} {change : Change ρ} {reference : Option (Option δ)}
    {content : Content ρ} {remaining : List (Content ρ)} {inline archive : Rows ρ}
    (hw : s.writers i = some ⟨doc, change, some ⟨reference, content :: remaining, inline, archive⟩⟩)
    (hc : saveChunk sha256 s.chunks ⟨content, reference.join⟩ = some chunks') :
    Sound ({ s with chunks := chunks' }.write i (some ⟨doc, change,
      some ⟨some (some (sha256 ⟨content, reference.join⟩)), remaining, inline, archive⟩⟩)) := by
  obtain ⟨he, hl'⟩ := saveChunk_ok hc
  refine (h.grow he).write i fun w hw' => ?_
  cases hw'
  have hwr := (h.writers i _ hw).grow he
  refine ⟨hwr.le, hwr.same, hwr.chain, fun plan hp => ?_⟩
  cases hp
  obtain ⟨hlead, hleft⟩ := hwr.plan _ rfl
  refine ⟨?_, hleft⟩
  constructor
  case inline =>
    intro _
    refine hlead.inline fun hn => ?_
    cases hlead.absent hn
  case absent => exact fun hn => by cases hn
  case chain =>
    obtain ⟨l, hl, hv⟩ := hlead.chain
    exact ⟨_, .link hl' hl, hv⟩

omit [DecidableEq ρ] in
theorem commit (h : Sound s) {i : ℕ} {doc : Doc δ ρ} {change : Change ρ} {reference : Option (Option δ)}
    {inline archive : Rows ρ} (hw : s.writers i = some ⟨doc, change, some ⟨reference, [], inline, archive⟩⟩) :
    Sound ({ s with doc := ⟨reference, inline, s.doc.revision + 1⟩, left := archive }.write i none) := by
  obtain ⟨hlead, _⟩ := (h.writers i _ hw).plan _ rfl
  have hs : Sound { s with doc := ⟨reference, inline, s.doc.revision + 1⟩, left := archive } := by
    constructor
    case has     => exact hlead.chain
    case inline  => exact hlead.inline
    case writers => exact fun j w hj => (h.writers j w hj).overtaken rfl
    case readers => exact h.readers
  exact hs.write i fun w hn => by cases hn

omit [DecidableEq ρ] in
theorem look (h : Sound s) {i : ℕ} {reference : Option δ} (hr : s.doc.reference = some reference) :
    Sound (s.read i (some ⟨reference, [], ∅, s.left⟩)) := by
  refine h.read i fun r hr' => ?_
  cases hr'
  obtain ⟨l, hl, hv⟩ := h.has
  rw [hr] at hl
  have hi := h.inline (by simp [hr])
  refine ⟨fun _ _ => rfl, l, hl, fun key => ?_⟩
  have hk := hv key
  rw [hi, AList.lookup_empty, Option.none_or] at hk
  simpa using hk

omit [DecidableEq ρ] in
theorem follow (h : Sound s) {i : ℕ} {reference : δ} {seen : List String} {rows left : Rows ρ} {chunk : Chunk δ ρ}
    (hr : s.readers i = some ⟨some reference, seen, rows, left⟩) (hc : s.chunks.lookup reference = some chunk) :
    Sound (s.read i (some ⟨chunk.parent, seen ++ chunk.rows.keys ++ chunk.removed, unseen seen rows chunk, left⟩)) := by
  refine h.read i fun r hr' => ?_
  cases hr'
  have hreads := h.readers i _ hr
  obtain ⟨l, hl, hv⟩ := hreads.chain
  cases hl
  case link l hl hc' =>
    rw [hc, Option.some_inj] at hc'
    subst hc'
    exact ⟨fun key => lookup_unseen_eq_none hreads.seen, l, hl, fun key => (ite_unseen hreads.seen).trans (hv key)⟩

theorem step (h : Sound s) (e : Event ρ) : Sound (s.step sha256 e) := by
  cases e
  case load i change => exact h.load
  case run i =>
    rw [System.step]
    split
    case h_1 doc change hw =>
      split
      case h_1 => exact h
      case h_2 => exact h.write i fun w hn => by cases hn
      case h_3 external ha => exact h.run hw ha
    case h_2 => exact h
  case save i =>
    rw [System.step]
    split
    case h_1 doc change reference content remaining inline archive hw =>
      dsimp only
      split
      case h_1 => exact h.write i fun w hn => by cases hn
      case h_2 chunks hc => exact h.save hw hc
    case h_2 => exact h
  case commit i =>
    rw [System.step]
    split
    case h_1 doc change reference inline archive hw =>
      split_ifs
      case pos => exact h.commit hw
      case neg => exact h.write i fun w hn => by cases hn
    case h_2 => exact h
  case look i =>
    rw [System.step]
    split
    case h_1 => exact h
    case h_2 reference hr => exact h.look hr
  case follow i =>
    rw [System.step]
    split
    case h_1 reference seen rows left hr =>
      split
      case h_1 => exact h.read i fun r hn => by cases hn
      case h_2 chunk hc => exact h.follow hr hc
    case h_2 => exact h

omit [DecidableEq ρ] in
theorem start (inline : Rows ρ) : Sound (System.start inline : System δ ρ) where
  has     := ⟨[], .root, fun key => by simp [System.start, value]⟩
  inline  := fun hn => absurd rfl hn
  writers := fun i w hw => by cases hw
  readers := fun i r hr => by cases hr

end Sound

-- Whatever writers and readers do, the rows of the committed reference are the archive that the last committed change
-- left, and a reader on its way comes to the archive there was when it looked.
theorem archive_kept (sha256 : Chunk δ ρ → δ) (inline : Rows ρ) (es : List (Event ρ)) :
    (∀ reference, (System.run sha256 inline es).doc.reference = some reference →
      ∃ rows, archiveRows (System.run sha256 inline es).chunks reference = some (.ok rows) ∧
        ∀ key, rows.lookup key = (System.run sha256 inline es).left.lookup key) ∧
    (∀ i r, (System.run sha256 inline es).readers i = some r →
      ∃ fuel rows, ArchiveChunks.follow (System.run sha256 inline es).chunks fuel r.reference r.seen r.rows =
        some (.ok rows) ∧ ∀ key, rows.lookup key = r.left.lookup key) ∧
    ∀ i w plan, (System.run sha256 inline es).writers i = some w → w.plan = some plan →
      w.doc.revision = (System.run sha256 inline es).doc.revision →
        ∃ external : Rows ρ, (∀ key, (w.doc.inline ∪ external).lookup key =
          (System.run sha256 inline es).left.lookup key) ∧ plan.archive = w.change.leaves w.doc.inline external := by
  have h : Sound (System.run sha256 inline es) := Run.invariant (fun _ e hs => hs.step e) (.start inline)
  refine ⟨fun reference hr => ?_, fun i r hr => ?_, fun i w plan hw hp => ((h.writers i w hw).plan plan hp).right⟩
  case refine_1 =>
    obtain ⟨l, hl, hv⟩ := h.has
    rw [hr] at hl
    obtain ⟨rows, ha, hrows⟩ := hl.archiveRows
    refine ⟨rows, ha, fun key => ?_⟩
    rw [hrows, ← hv, h.inline (by simp [hr]), AList.lookup_empty, Option.none_or]
  case refine_2 =>
    have hreads := h.readers i r hr
    obtain ⟨l, hl, hv⟩ := hreads.chain
    obtain ⟨rows, hf, hrows⟩ := hl.follow (Nat.lt_succ_self _) hreads.seen
    exact ⟨_, rows, hf, fun key => (hrows key).trans (hv key)⟩

end Runs
end ArchiveChunks
