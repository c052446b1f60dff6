import Agentihooks.Events.Hub
import Agentihooks.Library.Lists
import Agentihooks.Events.Patch

-- Applying the patch between two values to the first one, or to one that is the same, gives the second one.

namespace Events

variable {a b old new v : JsonValue} {key k : String} {items xs ys us : List JsonValue} {ids : List String}
variable {fields out olds : List (String × JsonValue)} {parts : List (String × Patch)} {patch : Patch}

theorem same_refl (a : JsonValue) : same a a :=
  JsonValue.alike_refl JsonScalar.strict_refl

theorem same_symm (h : same a b) : same b a :=
  JsonValue.alike_symm JsonScalar.strict_symm h

theorem same_trans {c : JsonValue} (h : same a b) (h' : same b c) : same a c :=
  JsonValue.alike_trans JsonScalar.strict_trans h h'

theorem same_array : same (.array xs) (.array ys) ↔ List.Forall₂ (fun x y => same x y) xs ys :=
  JsonValue.alike_array

theorem same_object : same (.object olds) (.object fields) ↔
    ∀ k, Option.Rel (fun x y => same x y) (olds.lookup k) (fields.lookup k) :=
  JsonValue.alike_object

section Fields

theorem lookup_assign : (assign key v out).lookup k = if k = key then some v else out.lookup k := by
  induction out
  case nil => simp [assign, JsonValue.lookup_cons_ite]
  case cons x out hi =>
    obtain ⟨l, w⟩ := x
    rw [assign]
    by_cases hl : l = key
    case pos =>
      subst hl
      simp only [if_pos, JsonValue.lookup_cons_ite]
      split <;> rfl
    case neg =>
      rw [if_neg hl, JsonValue.lookup_cons_ite, hi, JsonValue.lookup_cons_ite]
      by_cases hk : k = key
      case pos =>
        subst hk
        simp [Ne.symm hl]
      case neg => simp [hk]

theorem lookup_erased : (out.filter fun x => x.1 ≠ key).lookup k = if k = key then none else out.lookup k := by
  induction out
  case nil => simp
  case cons x out hi =>
    obtain ⟨l, w⟩ := x
    by_cases hl : l = key
    case pos =>
      subst hl
      rw [List.filter_cons_of_neg (by simp), hi, JsonValue.lookup_cons_ite]
      split <;> rfl
    case neg =>
      rw [List.filter_cons_of_pos (by simpa using hl), JsonValue.lookup_cons_ite, hi, JsonValue.lookup_cons_ite]
      by_cases hk : k = key
      case pos =>
        subst hk
        simp [Ne.symm hl]
      case neg => simp [hk]

-- What a patch makes of the value of a field.
def applyField (value : Option JsonValue) : Patch → Option JsonValue
  | .delete => none
  | part    => some (apply (value.getD (.scalar .null)) part)

theorem lookup_applyKeys_cons : (applyKeys out ((key, patch) :: parts)).lookup k =
    (applyKeys (match applyField (out.lookup key) patch with
      | none   => out.filter fun x => x.1 ≠ key
      | some v => assign key v out) parts).lookup k := by
  cases patch <;> rfl

-- A field that no part is about stays.
theorem lookup_applyKeys_of_not_mem (h : k ∉ parts.map Prod.fst) : (applyKeys out parts).lookup k = out.lookup k := by
  induction parts generalizing out
  case nil => rfl
  case cons x parts hi =>
    obtain ⟨l, part⟩ := x
    rw [List.map_cons, List.mem_cons, not_or] at h
    rw [lookup_applyKeys_cons, hi h.right]
    cases applyField (out.lookup l) part
    case none   => rw [lookup_erased, if_neg h.left]
    case some v => rw [lookup_assign, if_neg h.left]

theorem lookup_applyKeys_of_mem (hn : (parts.map Prod.fst).Nodup) (h : (k, patch) ∈ parts) :
    (applyKeys out parts).lookup k = applyField (out.lookup k) patch := by
  induction parts generalizing out
  case nil => simp at h
  case cons x parts hi =>
    obtain ⟨l, part⟩ := x
    obtain ⟨hl, hn⟩ := List.nodup_cons.mp hn
    rw [lookup_applyKeys_cons]
    rcases List.mem_cons.mp h with he | hm
    · cases he
      rw [lookup_applyKeys_of_not_mem hl]
      cases hf : applyField (out.lookup k) patch
      case none   => rw [lookup_erased, if_pos rfl]
      case some v => rw [lookup_assign, if_pos rfl]
    · have hk : k ≠ l := by
        rintro rfl
        have hm : k ∈ parts.map Prod.fst := List.mem_map_of_mem (f := Prod.fst) hm
        exact hl hm
      rw [hi hn hm]
      cases applyField (out.lookup l) part
      case none   => rw [lookup_erased, if_neg hk]
      case some v => rw [lookup_assign, if_neg hk]

theorem lookup_applyKeys_deleted (h : ∀ x ∈ parts, x.2 = .delete) :
    (applyKeys out parts).lookup k = if k ∈ parts.map Prod.fst then none else out.lookup k := by
  induction parts generalizing out
  case nil => simp [applyKeys]
  case cons x parts hi =>
    obtain ⟨l, part⟩ := x
    rw [List.forall_mem_cons] at h
    obtain ⟨rfl, h⟩ := h
    rw [applyKeys, hi h, lookup_erased, List.map_cons]
    by_cases hk : k = l
    case pos => simp [hk]
    case neg =>
      have hiff : k ∈ l :: parts.map Prod.fst ↔ k ∈ parts.map Prod.fst := by simp [hk]
      simp only [hiff, if_neg hk]

theorem applyKeys_append {parts' : List (String × Patch)} :
    applyKeys out (parts ++ parts') = applyKeys (applyKeys out parts) parts' := by
  induction parts generalizing out
  case nil => rfl
  case cons x parts hi =>
    obtain ⟨l, part⟩ := x
    cases part <;> exact hi

end Fields

section Items

theorem idOf_same (h : same a b) : idOf a = idOf b := by
  cases a <;> cases b <;> try cases h
  case scalar.scalar => rfl
  case array.array   => rfl
  case object.object =>
    have hk := same_object.mp h "id"
    rw [idOf, idOf, JsonValue.get?, JsonValue.get?]
    generalize List.lookup "id" _ = x at hk ⊢
    generalize List.lookup "id" _ = y at hk ⊢
    cases hk
    case none => rfl
    case some x y hk =>
      cases x <;> cases y <;> try cases hk
      case scalar.scalar s t =>
        obtain ⟨ht, hl⟩ := JsonScalar.strict_iff.mp hk
        cases s <;> cases t <;> try cases ht
        case str.str =>
          rcases JsonScalar.loose_iff.mp hl with he | ⟨hs, _⟩
          · rw [he]
          · cases hs
        all_goals rfl
      all_goals rfl

theorem idsOf_spec (h : idsOf items = some ids) : List.Forall₂ (fun item id => idOf item = some id) items ids ∧ ids.Nodup := by
  obtain ⟨hm, hn⟩ := Option.filter_eq_some_iff.mp h
  exact ⟨List.forall₂_of_mapM hm, by simpa using hn⟩

-- Where no two items have one id, the item of an id is the one that has it.
theorem byId_eq (h : idsOf items = some ids) (hm : a ∈ items) (ha : idOf a = some k) : byId items k = some a := by
  obtain ⟨hf, hn⟩ := idsOf_spec h
  have hu : ∀ b ∈ items, idOf b = some k → b = a := by
    clear h
    induction hf
    case nil => simp at hm
    case cons x i items ids hx hf hi =>
      obtain ⟨hi', hn⟩ := List.nodup_cons.mp hn
      have hid : ∀ c ∈ items, idOf c ≠ some i := by
        intro c hc he
        obtain ⟨n, hl, rfl⟩ := List.mem_iff_getElem.mp hc
        have hr := hf.get (i := n) hl (hf.length_eq ▸ hl)
        simp only [List.get_eq_getElem] at hr
        rw [he] at hr
        cases hr
        exact hi' (List.getElem_mem _)
      intro b hb hk
      rcases List.mem_cons.mp hm with rfl | hm' <;> rcases List.mem_cons.mp hb with rfl | hb'
      · rfl
      · cases hx.symm.trans ha
        exact absurd hk (hid b hb')
      · cases hx.symm.trans hk
        exact absurd ha (hid a hm')
      · exact hi hm' hn b hb' hk
  rw [byId]
  cases hb : items.reverse.find? fun item => idOf item = some k
  case none => exact absurd ha (by simpa using List.find?_eq_none.mp hb a (List.mem_reverse.mpr hm))
  case some b =>
    rw [hu b (List.mem_reverse.mp (List.mem_of_find?_eq_some hb)) (by simpa using List.find?_some hb)]

theorem byId_some (h : byId items k = some a) : a ∈ items ∧ idOf a = some k :=
  ⟨List.mem_reverse.mp (List.mem_of_find?_eq_some h), by simpa using List.find?_some h⟩

theorem overlap_spec {α : Type} {same : List α → List α → Bool} {xs ys : List α} (h : same [] []) :
    overlap same xs ys ≤ xs.length ∧ xs.length - overlap same xs ys ≤ ys.length ∧
      same (xs.drop (overlap same xs ys)) (ys.take (xs.length - overlap same xs ys)) := by
  rw [overlap]
  cases hf : (List.range xs.length).find? fun drop =>
    xs.length - drop ≤ ys.length ∧ same (xs.drop drop) (ys.take (xs.length - drop))
  case none => simpa using h
  case some drop =>
    have hs := List.find?_some hf
    have hm := List.mem_range.mp (List.mem_of_find?_eq_some hf)
    simp only [decide_eq_true_iff] at hs
    exact ⟨hm.le, hs⟩

variable {oldIds newIds : List String}

-- An item by its id: it was upserted, or the one before is the same.
theorem byId_upserts (xs : List JsonValue) (hn : idsOf ys = some newIds) (hs : items ⊆ ys) (ha : a ∈ items) (hk : idOf a = some k) :
    byId (upserts xs items) k = some a ∨ byId (upserts xs items) k = none ∧ ∃ b, byId xs k = some b ∧ same b a := by
  have hmem : ∀ b, byId (upserts xs items) k = some b → b = a ∧ a ∈ upserts xs items := by
    intro b hb
    obtain ⟨hm, hid⟩ := byId_some hb
    have he := byId_eq hn (hs (List.mem_of_mem_filter hm)) hid
    cases he.symm.trans (byId_eq hn (hs ha) hk)
    exact ⟨rfl, hm⟩
  by_cases hu : a ∈ upserts xs items
  case pos =>
    left
    cases hb : byId (upserts xs items) k
    case some b => rw [(hmem b hb).left]
    case none =>
      have hf := List.find?_eq_none.mp hb a (List.mem_reverse.mpr hu)
      exact absurd hk (by simpa using hf)
  case neg =>
    right
    have hany : ((idOf a).bind (byId xs)).any (same · a) := by
      by_contra hc
      exact hu (List.mem_filter.mpr ⟨ha, by simpa using hc⟩)
    constructor
    case left =>
      cases hb : byId (upserts xs items) k
      case none   => rfl
      case some b => exact absurd (hmem b hb).right hu
    case right =>
      rw [hk, Option.bind_some] at hany
      cases hb : byId xs k
      case none   => simp [hb] at hany
      case some b => exact ⟨b, rfl, by simpa [hb] using hany⟩

theorem forall₂_mem {α β : Type} {R S : α → β → Prop} {xs : List α} {ys : List β} (h : List.Forall₂ R xs ys)
    (hs : ∀ x ∈ xs, ∀ y ∈ ys, R x y → S x y) : List.Forall₂ S xs ys := by
  induction h
  case nil => exact .nil
  case cons x y xs ys hr _ hi =>
    exact .cons (hs x (by simp) y (by simp) hr) (hi fun x hx y hy => hs x (by simp [hx]) y (by simp [hy]))

theorem forall₂_join {α β γ : Type} {R : α → γ → Prop} {S : β → γ → Prop} {xs : List α} {ys : List β} {zs : List γ}
    (h : List.Forall₂ R xs zs) (h' : List.Forall₂ S ys zs) : List.Forall₂ (fun x y => ∃ z, R x z ∧ S y z) xs ys := by
  induction h generalizing ys
  case nil =>
    cases h'
    exact .nil
  case cons x z xs zs hx _ hi =>
    cases h'
    case cons y ys hy h' => exact .cons ⟨z, hx, hy⟩ (hi h')

theorem same_append {xs' ys' : List JsonValue} (h : List.Forall₂ (fun x y => same x y) xs ys)
    (h' : List.Forall₂ (fun x y => same x y) xs' ys') :
    List.Forall₂ (fun x y => same x y) (xs ++ xs') (ys ++ ys') :=
  List.rel_append h h'

theorem apply_listDiff : same (apply (.array xs) (listDiff xs ys)) (.array ys) := by
  have hr (zs : List JsonValue) : List.Forall₂ (fun x y => same x y) zs zs :=
    List.forall₂_same.mpr fun z _ => same_refl z
  rw [listDiff]
  split
  case h_1 oldIds newIds ho hn =>
    obtain ⟨hfo, _⟩ := idsOf_spec ho
    obtain ⟨hfn, _⟩ := idsOf_spec hn
    dsimp only
    split
    case isTrue =>
      rw [apply, same_array, List.forall₂_map_left_iff]
      refine forall₂_mem hfn.flip fun id _ item hm hid => ?_
      rcases byId_upserts xs hn (List.Subset.refl ys) hm hid with hu | ⟨hu, b, hb, hsame⟩
      · rw [hu]
        exact same_refl item
      · rw [hu, itemsOf, hb]
        exact hsame
    case isFalse =>
      have hl : oldIds.length = xs.length := hfo.length_eq.symm
      obtain ⟨hle, hle', hs⟩ := @overlap_spec String (· == ·) oldIds newIds rfl
      have hk : oldIds.length - (oldIds.length - overlap (· == ·) oldIds newIds) = overlap (· == ·) oldIds newIds := by
        omega
      rw [apply, same_array, hk]
      generalize overlap (· == ·) oldIds newIds = drop at *
      have hdrop := List.forall₂_drop drop hfo
      have htake := List.forall₂_take (oldIds.length - drop) hfn
      rw [← eq_of_beq hs] at htake
      have hkept : List.Forall₂ (fun x y => same x y)
          ((xs.drop drop).map fun o => ((idOf o).bind (byId (upserts xs (ys.take (oldIds.length - drop))))).getD o)
          (ys.take (oldIds.length - drop)) := by
        rw [List.forall₂_map_left_iff]
        refine forall₂_mem (forall₂_join hdrop htake) fun o hmo item hm => ?_
        rintro ⟨id, hid, hid'⟩
        rw [hid, Option.bind_some]
        rcases byId_upserts xs hn (List.take_subset _ ys) hm hid' with hu | ⟨hu, b, hb, hsame⟩
        · rw [hu]
          exact same_refl item
        · rw [byId_eq ho (List.mem_of_mem_drop hmo) hid] at hb
          cases hb
          rw [hu]
          exact hsame
      have hf := same_append hkept (hr (ys.drop (oldIds.length - drop)))
      rwa [List.take_append_drop] at hf
  case h_2 =>
    obtain ⟨hle, hle', hs⟩ := @overlap_spec _ sameItems xs ys (same_refl (.array []))
    dsimp only
    rw [apply, same_array]
    generalize overlap sameItems xs ys = drop at *
    have hf := same_append (same_array.mp hs) (hr (ys.drop (xs.length - drop)))
    rw [List.take_append_drop] at hf
    have hb (item : JsonValue) : ((idOf item).bind (byId [])).getD item = item := by cases idOf item <;> rfl
    simpa [itemsOf, hb] using hf

end Items

section Diff

theorem mem_diffFields {patch : Patch} : (k, patch) ∈ diffFields olds fields ↔
    ∃ v, (k, v) ∈ fields ∧ ∃ old, olds.lookup k = some old ∧ diff old v = some patch := by
  induction fields
  case nil => simp [diffFields]
  case cons x fields hi =>
    obtain ⟨l, w⟩ := x
    rw [diffFields]
    constructor
    case mp =>
      intro h
      cases ho : olds.lookup l
      case none =>
        rw [ho] at h
        obtain ⟨v, hm, hd⟩ := hi.mp h
        exact ⟨v, by simp [hm], hd⟩
      case some old =>
        rw [ho] at h
        rcases List.mem_append.mp h with h | h
        · obtain ⟨p, hp, he⟩ := Option.map_eq_some_iff.mp (Option.mem_toList.mp h)
          cases he
          exact ⟨w, by simp, old, ho, hp⟩
        · obtain ⟨v, hm, hd⟩ := hi.mp h
          exact ⟨v, by simp [hm], hd⟩
    case mpr =>
      rintro ⟨v, hm, old, ho, hd⟩
      rcases List.mem_cons.mp hm with he | hm
      · cases he
        simp [ho, hd]
      · have hf := hi.mpr ⟨v, hm, old, ho, hd⟩
        cases olds.lookup l
        case none     => exact hf
        case some old => exact List.mem_append_right _ hf

theorem keys_diffFields : ((diffFields olds fields).map Prod.fst).Sublist (fields.map Prod.fst) := by
  induction fields
  case nil => simp [diffFields]
  case cons x fields hi =>
    obtain ⟨l, w⟩ := x
    rw [diffFields]
    cases olds.lookup l
    case none => exact hi.cons l
    case some old =>
      dsimp only
      cases diff old w
      case none   => exact hi.cons l
      case some p => exact hi.cons_cons l

-- The patch between two values that are not the same.
def change : (old new : JsonValue) → Patch
  | .array xs,    .array ys      => listDiff xs ys
  | .object olds, .object fields => .keys (deleted olds fields ++ added olds fields ++ diffFields olds fields)
  | _,            new            => .value new

theorem diff_eq : diff old new = if same old new then none else some (change old new) := by
  cases new <;> cases old <;> rfl

theorem diff_eq_none : diff old new = none ↔ same old new := by
  rw [diff_eq]
  split <;> simp [*]

theorem change_ne_delete : change old new ≠ .delete := by
  cases old <;> cases new
  case array.array xs ys =>
    rw [change, listDiff]
    split
    · dsimp only
      split <;> exact Patch.noConfusion
    · exact Patch.noConfusion
  all_goals exact Patch.noConfusion

theorem eq_change (h : diff old new = some patch) : patch = change old new := by
  rw [diff_eq] at h
  split at h <;> cases h
  rfl

theorem lookup_isNone : (fields.lookup k).isNone ↔ k ∉ fields.map Prod.fst := by
  rw [Option.isNone_iff_eq_none, ← Option.not_isSome_iff_eq_none, JsonValue.isSome_lookup]
  simp

theorem mem_keys_deleted : k ∈ (deleted olds fields).map Prod.fst ↔
    k ∈ olds.map Prod.fst ∧ k ∉ fields.map Prod.fst := by
  rw [← lookup_isNone]
  simp only [deleted, List.map_map, List.mem_map, List.mem_filter, Function.comp_apply]
  constructor
  case mp =>
    rintro ⟨x, ⟨hx, hn⟩, rfl⟩
    exact ⟨⟨x, hx, rfl⟩, hn⟩
  case mpr =>
    rintro ⟨⟨x, hx, rfl⟩, hn⟩
    exact ⟨x, ⟨hx, hn⟩, rfl⟩

theorem mem_added {patch : Patch} : (k, patch) ∈ added olds fields ↔
    ∃ v, (k, v) ∈ fields ∧ k ∉ olds.map Prod.fst ∧ patch = .value v := by
  rw [← lookup_isNone]
  simp only [added, List.mem_map, List.mem_filter, Prod.mk.injEq]
  constructor
  case mp =>
    rintro ⟨x, ⟨hx, hn⟩, rfl, rfl⟩
    exact ⟨x.2, hx, hn, rfl⟩
  case mpr =>
    rintro ⟨v, hx, hn, rfl⟩
    exact ⟨(k, v), ⟨hx, hn⟩, rfl, rfl⟩

theorem keys_added : ((added olds fields).map Prod.fst).Sublist (fields.map Prod.fst) := by
  rw [added, List.map_map]
  exact List.filter_sublist.map _

-- Every field comes out as the one of the new object.
theorem lookup_applyKeys_diff (hn : (fields.map Prod.fst).Nodup)
    (hi : ∀ x ∈ fields, ∀ old patch, diff old x.2 = some patch → same (apply old patch) x.2) :
    Option.Rel (fun x y => same x y)
      ((applyKeys olds (deleted olds fields ++ added olds fields ++ diffFields olds fields)).lookup k)
      (fields.lookup k) := by
  have hdel : (applyKeys olds (deleted olds fields)).lookup k =
      if k ∈ (deleted olds fields).map Prod.fst then none else olds.lookup k :=
    lookup_applyKeys_deleted fun x hx => by
      obtain ⟨_, _, rfl⟩ := List.mem_map.mp hx
      rfl
  rw [applyKeys_append, applyKeys_append]
  cases hf : fields.lookup k
  case none =>
    have hk : k ∉ fields.map Prod.fst := lookup_isNone.mp (Option.isNone_iff_eq_none.mpr hf)
    rw [lookup_applyKeys_of_not_mem fun hm => hk (keys_diffFields.subset hm),
      lookup_applyKeys_of_not_mem fun hm => hk (keys_added.subset hm), hdel]
    split
    case isTrue => exact .none
    case isFalse hn =>
      have ho : k ∉ olds.map Prod.fst := fun ho => hn (mem_keys_deleted.mpr ⟨ho, hk⟩)
      rw [Option.isNone_iff_eq_none.mp (lookup_isNone.mpr ho)]
      exact .none
  case some v =>
    have hm : (k, v) ∈ fields := JsonValue.mem_of_lookup hf
    have hk : k ∈ fields.map Prod.fst := List.mem_map_of_mem (f := Prod.fst) hm
    rw [if_neg fun hd => (mem_keys_deleted.mp hd).right hk] at hdel
    cases ho : olds.lookup k
    case none =>
      have ho' : k ∉ olds.map Prod.fst := lookup_isNone.mp (Option.isNone_iff_eq_none.mpr ho)
      have hnd : k ∉ (diffFields olds fields).map Prod.fst := by
        intro hd
        obtain ⟨⟨_, patch⟩, hp, rfl⟩ := List.mem_map.mp hd
        obtain ⟨_, _, old, hold, _⟩ := mem_diffFields.mp hp
        cases ho.symm.trans hold
      rw [lookup_applyKeys_of_not_mem hnd,
        lookup_applyKeys_of_mem (hn.sublist keys_added) (mem_added.mpr ⟨v, hm, ho', rfl⟩)]
      exact .some (same_refl v)
    case some old =>
      have hna : k ∉ (added olds fields).map Prod.fst := by
        intro ha
        obtain ⟨⟨_, patch⟩, hp, rfl⟩ := List.mem_map.mp ha
        obtain ⟨_, _, hk', _⟩ := mem_added.mp hp
        exact hk' (List.mem_map_of_mem (f := Prod.fst) (JsonValue.mem_of_lookup ho))
      have hmid : (applyKeys (applyKeys olds (deleted olds fields)) (added olds fields)).lookup k = some old := by
        rw [lookup_applyKeys_of_not_mem hna, hdel, ho]
      cases hd : diff old v
      case none =>
        have hnd : k ∉ (diffFields olds fields).map Prod.fst := by
          intro hk'
          obtain ⟨⟨_, patch⟩, hp, rfl⟩ := List.mem_map.mp hk'
          obtain ⟨v', hm', old', ho', hd'⟩ := mem_diffFields.mp hp
          cases ho.symm.trans ho'
          cases hf.symm.trans ((JsonValue.lookup_eq_some_iff_mem hn).mpr hm')
          cases hd.symm.trans hd'
        rw [lookup_applyKeys_of_not_mem hnd, hmid]
        exact .some (diff_eq_none.mp hd)
      case some patch =>
        rw [lookup_applyKeys_of_mem (hn.sublist keys_diffFields) (mem_diffFields.mpr ⟨v, hm, old, ho, hd⟩), hmid]
        have hp := hi (k, v) hm old patch hd
        cases patch
        case delete =>
          exact absurd (eq_change hd).symm change_ne_delete
        all_goals exact .some hp

theorem same_apply_change (hn : new.distinct) : same (apply old (change old new)) new := by
  induction new using JsonValue.ind generalizing old
  case scalar s => cases old <;> exact same_refl _
  case array items hi =>
    cases old
    case array => exact apply_listDiff
    all_goals exact same_refl _
  case object fields hi =>
    obtain ⟨hn, hd⟩ := JsonValue.distinct_object.mp hn
    cases old
    case object olds =>
      rw [change, apply, same_object]
      refine fun k => lookup_applyKeys_diff hn fun x hx old patch h => ?_
      rw [eq_change h]
      exact hi x hx (hd x hx)
    all_goals exact same_refl _

theorem same_apply_diff (hn : new.distinct) (h : diff old new = some patch) : same (apply old patch) new :=
  eq_change h ▸ same_apply_change hn

end Diff

section Congruence

-- The fields of two objects that are the same.
def SameFields (xs ys : List (String × JsonValue)) : Prop :=
  ∀ k, Option.Rel (fun x y => same x y) (xs.lookup k) (ys.lookup k)

theorem sameFields_assign {fields fields' : List (String × JsonValue)} (h : SameFields fields fields') (hv : same a b) :
    SameFields (assign key a fields) (assign key b fields') := by
  intro k
  rw [lookup_assign, lookup_assign]
  split
  case isTrue  => exact .some hv
  case isFalse => exact h k

theorem sameFields_erased {fields fields' : List (String × JsonValue)} (h : SameFields fields fields') :
    SameFields (fields.filter fun x => x.1 ≠ key) (fields'.filter fun x => x.1 ≠ key) := by
  intro k
  rw [lookup_erased, lookup_erased]
  split
  case isTrue  => exact .none
  case isFalse => exact h k

theorem sameFields_fieldsOf (h : same a b) : SameFields (fieldsOf a) (fieldsOf b) := by
  cases a <;> cases b <;> try cases h
  case object.object => exact same_object.mp h
  all_goals exact fun _ => .none

theorem forall₂_itemsOf (h : same a b) : List.Forall₂ (fun x y => same x y) (itemsOf a) (itemsOf b) := by
  cases a <;> cases b <;> try cases h
  case array.array => exact same_array.mp h
  all_goals exact .nil

theorem byId_same (h : List.Forall₂ (fun x y => same x y) xs ys) :
    Option.Rel (fun x y => same x y) (byId xs k) (byId ys k) := by
  have hr := List.rel_reverse h
  rw [byId, byId]
  generalize xs.reverse = xs' at hr
  generalize ys.reverse = ys' at hr
  induction hr
  case nil => exact .none
  case cons x y xs ys hxy _ hi =>
    rw [List.find?_cons, List.find?_cons, idOf_same hxy]
    split
    case h_1 => exact .some hxy
    case h_2 => exact hi

theorem same_getD {x y : Option JsonValue} (h : Option.Rel (fun x y => same x y) x y) :
    same (x.getD (.scalar .null)) (y.getD (.scalar .null)) := by
  cases h
  case none   => exact same_refl _
  case some h => exact h

mutual

-- A patch makes the same of values that are the same.
theorem same_apply {x y : JsonValue} (h : same x y) : (patch : Patch) → same (apply x patch) (apply y patch)
  | .value v           => same_refl v
  | .delete            => h
  | .keys parts        => by
    rw [apply, apply, same_object]
    exact sameFields_applyKeys (sameFields_fieldsOf h) parts
  | .slide drop add us => by
    rw [apply, apply, same_array]
    refine same_append ?_ (List.forall₂_same.mpr fun x _ => same_refl x)
    rw [List.forall₂_map_left_iff, List.forall₂_map_right_iff]
    refine (List.forall₂_drop drop (forall₂_itemsOf h)).imp fun x y hxy => ?_
    rw [idOf_same hxy]
    cases (idOf y).bind (byId us)
    case none   => exact hxy
    case some z => exact same_refl z
  | .order ids us      => by
    rw [apply, apply, same_array]
    rw [List.forall₂_map_left_iff, List.forall₂_map_right_iff, List.forall₂_same]
    intro id _
    have hb := byId_same (k := id) (forall₂_itemsOf h)
    cases byId us id
    case some z => exact same_refl z
    case none   => exact same_getD hb

theorem sameFields_applyKeys {fields fields' : List (String × JsonValue)} (h : SameFields fields fields') :
    (parts : List (String × Patch)) → SameFields (applyKeys fields parts) (applyKeys fields' parts)
  | []                => h
  | (k, part) :: rest => by
    have hp := same_apply (same_getD (h k)) part
    cases part
    case delete => exact sameFields_applyKeys (sameFields_erased h) rest
    all_goals exact sameFields_applyKeys (sameFields_assign h hp) rest

end

end Congruence

end Events

-- The patch between two values applies to the first one, and gives the second one.

namespace Events

variable {a old new v : JsonValue} {key k : String} {items xs ys us : List JsonValue} {ids : List String}
variable {fields out olds : List (String × JsonValue)} {parts : List (String × Patch)} {patch : Patch}

-- Parts under different keys apply one by one if each applies to the value that was there first.
theorem appliesKeys_of (hn : (parts.map Prod.fst).Nodup)
    (h : ∀ x ∈ parts, x.2 ≠ .delete → applies ((out.lookup x.1).getD (.scalar .null)) x.2) : appliesKeys out parts := by
  induction parts generalizing out
  case nil => rfl
  case cons x parts hi =>
    obtain ⟨k, part⟩ := x
    obtain ⟨hk, hn⟩ := List.nodup_cons.mp hn
    have hne : ∀ x ∈ parts, x.1 ≠ k := fun x hx he => hk (List.mem_map.mpr ⟨x, hx, he⟩)
    rw [List.forall_mem_cons] at h
    have hrest {out' : List (String × JsonValue)} (ho : ∀ l, l ≠ k → out'.lookup l = out.lookup l) :
        appliesKeys out' parts := by
      refine hi hn fun x hx hd => ?_
      rw [ho x.1 (hne x hx)]
      exact h.right x hx hd
    cases part
    case delete =>
      refine hrest fun l hl => ?_
      rw [lookup_erased, if_neg hl]
    all_goals
      simp only [appliesKeys, Bool.and_eq_true]
      refine ⟨h.left Patch.noConfusion, hrest fun l hl => ?_⟩
      rw [lookup_assign, if_neg hl]

theorem haveIds_of_idsOf (h : idsOf items = some ids) : haveIds items := by
  have hf := (idsOf_spec h).left
  simp only [haveIds, List.all_eq_true]
  clear h
  induction hf
  case nil              => simp
  case cons hid _ hi    => simpa [hid] using hi

theorem haveIds_subset (h : haveIds items) (hs : ∀ x ∈ xs, x ∈ items) : haveIds xs := by
  simp only [haveIds, List.all_eq_true] at h ⊢
  exact fun x hx => h x (hs x hx)

theorem applies_listDiff : applies (.array xs) (listDiff xs ys) := by
  unfold listDiff
  split
  case h_1 oldIds newIds ho hn =>
    have hups {items : List JsonValue} (hs : ∀ x ∈ items, x ∈ ys) : haveIds (upserts xs items) :=
      haveIds_subset (haveIds_of_idsOf hn) fun x hx => hs x (List.mem_of_mem_filter hx)
    extract_lets kept
    split
    case isTrue  => simp [applies, isArray, itemsOf, haveIds_of_idsOf ho, hups fun _ hx => hx]
    case isFalse =>
      have hdrop : haveIds (xs.drop (oldIds.length - kept)) :=
        haveIds_subset (haveIds_of_idsOf ho) fun _ => List.mem_of_mem_drop
      simp [applies, isArray, itemsOf, hups fun _ => List.mem_of_mem_take, hdrop]
  case h_2 => simp [applies, isArray, haveIds]

-- Every field has at most one part in the patch between two objects.
theorem nodup_parts (ho : (olds.map Prod.fst).Nodup) (hn : (fields.map Prod.fst).Nodup) :
    ((deleted olds fields ++ added olds fields ++ diffFields olds fields).map Prod.fst).Nodup := by
  have hdeleted : ((deleted olds fields).map Prod.fst).Nodup := by
    rw [deleted, List.map_map]
    exact ho.sublist (List.filter_sublist.map _)
  have hnew {x : String × Patch} (hx : x ∈ diffFields olds fields) : x.1 ∈ olds.map Prod.fst := by
    obtain ⟨_, _, old, hold, _⟩ := mem_diffFields.mp hx
    exact List.mem_map_of_mem (f := Prod.fst) (JsonValue.mem_of_lookup hold)
  rw [List.map_append, List.map_append]
  refine (hdeleted.append (hn.sublist keys_added) fun k hd ha => ?_).append (hn.sublist keys_diffFields) fun k hk hd => ?_
  · exact (mem_keys_deleted.mp hd).right (keys_added.subset ha)
  · obtain hk | hk := List.mem_append.mp hk
    · exact (mem_keys_deleted.mp hk).right (keys_diffFields.subset hd)
    · obtain ⟨x, hx, rfl⟩ := List.mem_map.mp hk
      obtain ⟨_, _, hnot, _⟩ := mem_added.mp hx
      obtain ⟨y, hy, he⟩ := List.mem_map.mp hd
      exact hnot (he ▸ hnew hy)

theorem applies_value : applies a (.value v) :=
  rfl

theorem applies_change (ho : old.distinct) (hn : new.distinct) : applies old (change old new) := by
  induction new using JsonValue.ind generalizing old
  case scalar s      => cases old <;> exact applies_value
  case array items _ =>
    cases old
    case array olds => exact applies_listDiff
    all_goals exact applies_value
  case object fields hi =>
    cases old
    case object olds =>
      obtain ⟨hn, hd⟩ := JsonValue.distinct_object.mp hn
      obtain ⟨ho, hd'⟩ := JsonValue.distinct_object.mp ho
      rw [change, applies, isObject, Bool.true_and, fieldsOf]
      refine appliesKeys_of (nodup_parts ho hn) fun x hx hne => ?_
      obtain hx | hx := List.mem_append.mp hx
      · obtain hx | hx := List.mem_append.mp hx
        · obtain ⟨_, _, rfl⟩ := List.mem_map.mp hx
          exact absurd rfl hne
        · obtain ⟨_, _, _, he⟩ := mem_added.mp hx
          rw [he]
          exact applies_value
      · obtain ⟨v, hv, old, hold, hp⟩ := mem_diffFields.mp hx
        rw [hold, Option.getD_some, eq_change hp]
        exact hi _ hv (hd' _ (JsonValue.mem_of_lookup hold)) (hd _ hv)
    all_goals exact applies_value

-- No patch is given exactly for two values that are the same; a patch applies to the old value and gives the new one.
theorem diff_round_trip (old new : Value) : match diff old.json new.json with
    | none       => old.json.alike JsonScalar.strict new.json
    | some patch => applies old.json patch ∧ (apply old.json patch).alike JsonScalar.strict new.json := by
  cases h : diff old.json new.json with
  | none       => exact diff_eq_none.mp h
  | some patch =>
    have happlies : applies old.json patch := eq_change h ▸ applies_change old.distinct new.distinct
    exact ⟨happlies, same_apply_diff new.distinct h⟩

end Events
