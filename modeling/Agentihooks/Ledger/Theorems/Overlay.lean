import Agentihooks.Ledger.Theorems.Load

-- What is stored once a difference is written is the new value, but the old one wherever the walk found the two equal.

namespace Ledger

variable {p : Part} {path q : Path} {key : Key} {position i j : ℕ} {rows : Rows}
variable {old new left right l r x y v : JsonValue} {xs ys : List JsonValue}
variable {fields fields' : List (String × JsonValue)}

mutual

def overlay (left right : JsonValue) : JsonValue :=
  match left with
  | .scalar s  => if equal (.scalar s) right then .scalar s else right
  | .array xs  =>
    if equal (.array xs) right then
      .array xs
    else
      match right with
      | .array ys => if parts xs <+: parts ys then .array (overlayItems xs ys) else .array ys
      | right     => right
  | .object xs =>
    if equal (.object xs) right then
      .object xs
    else
      match right with
      | .object ys => if xs.map Prod.fst <+: ys.map Prod.fst then .object (overlayFields xs ys) else .object ys
      | right      => right

def overlayItems (xs ys : List JsonValue) : List JsonValue :=
  match xs, ys with
  | [],      ys      => ys
  | _ :: _,  []      => []
  | x :: xs, y :: ys => overlay x y :: overlayItems xs ys

def overlayFields (xs ys : List (String × JsonValue)) : List (String × JsonValue) :=
  match xs, ys with
  | [],           ys           => ys
  | _ :: _,       []           => []
  | (_, x) :: xs, (name, y) :: ys => (name, overlay x y) :: overlayFields xs ys

end

-- The two values that the walk compares under a path, if it gets there.
def compared (old new : JsonValue) : Path → Option (JsonValue × JsonValue)
  | []        => some (old, new)
  | p :: path =>
    if ¬equal old new ∧ Descends old new then
      match (children old).lookup p, (children new).lookup p with
      | some l, some r => compared l r path
      | _,      _      => none
    else none

-- Whatever the walk finds equal is the same JSON value.
def Tells (old new : JsonValue) : Prop :=
  ∀ q l r, compared old new q = some (l, r) → equal l r → l.alike JsonScalar.strict r

theorem descends_array : Descends (.array xs) (.array ys) ↔ parts xs <+: parts ys := by
  simp [Descends, kind, map_children_array]

theorem descends_object : Descends (.object fields) (.object fields') ↔ fields.map Prod.fst <+: fields'.map Prod.fst := by
  rw [Descends, map_children_object, map_children_object, prefix_map_name]
  simp [kind]

theorem overlay_of_equal (h : equal left right) : overlay left right = left := by
  cases left <;> cases right <;> simp only [overlay, if_pos h]

theorem overlay_of_not (he : ¬equal left right) (hd : ¬Descends left right) : overlay left right = right := by
  cases left <;> cases right <;> simp only [overlay, if_neg he]
  case array.array   => exact if_neg (descends_array.not.mp hd)
  case object.object => exact if_neg (descends_object.not.mp hd)

theorem overlay_array (he : ¬equal (.array xs) (.array ys)) (hd : Descends (.array xs) (.array ys)) :
    overlay (.array xs) (.array ys) = .array (overlayItems xs ys) := by
  simp only [overlay, if_neg he, if_pos (descends_array.mp hd)]

theorem overlay_object (he : ¬equal (.object fields) (.object fields')) (hd : Descends (.object fields) (.object fields')) :
    overlay (.object fields) (.object fields') = .object (overlayFields fields fields') := by
  simp only [overlay, if_neg he, if_pos (descends_object.mp hd)]

theorem overlay_self : overlay x x = x := by
  refine overlay_of_equal ?_
  rw [equal, decide_eq_true_iff]
  exact ⟨rfl, JsonValue.alike_refl JsonScalar.loose_refl⟩

theorem length_overlayItems (h : xs.length ≤ ys.length) : (overlayItems xs ys).length = ys.length := by
  induction xs generalizing ys
  case nil => rw [overlayItems]
  case cons x xs hi =>
    cases ys
    case nil => simp at h
    case cons y ys =>
      rw [overlayItems, List.length_cons, List.length_cons, hi (by simpa using h)]

theorem getElem?_overlayItems : (overlayItems xs ys)[i]? = match xs[i]?, ys[i]? with
    | some x, some y => some (overlay x y)
    | none,   y      => if xs.length ≤ ys.length then y else none
    | _,      none   => none := by
  induction xs generalizing ys i
  case nil => simp [overlayItems]
  case cons x xs hi =>
    cases ys
    case nil => cases h : (x :: xs)[i]? <;> simp [overlayItems]
    case cons y ys =>
      rw [overlayItems]
      cases i
      case zero   => rfl
      case succ i => simpa using hi

theorem keys_overlayFields (h : fields.map Prod.fst <+: fields'.map Prod.fst) :
    (overlayFields fields fields').map Prod.fst = fields'.map Prod.fst := by
  induction fields generalizing fields'
  case nil => rw [overlayFields]
  case cons x fields hi =>
    cases fields'
    case nil => simp at h
    case cons y fields' =>
      rw [overlayFields, List.map_cons, List.map_cons, hi (List.cons_prefix_cons.mp h).right]

theorem lookup_overlayFields {k : String} (h : fields.map Prod.fst <+: fields'.map Prod.fst) :
    (overlayFields fields fields').lookup k = (fields'.lookup k).map fun y => (fields.lookup k).elim y (overlay · y) := by
  induction fields generalizing fields'
  case nil =>
    rw [overlayFields]
    simp
  case cons x fields hi =>
    cases fields'
    case nil => simp at h
    case cons y fields' =>
      obtain ⟨l, x⟩ := x
      obtain ⟨l', y⟩ := y
      obtain ⟨rfl, hp⟩ := List.cons_prefix_cons.mp h
      rw [overlayFields, JsonValue.lookup_cons_ite, JsonValue.lookup_cons_ite, JsonValue.lookup_cons_ite, hi hp]
      split <;> rfl

-- Over a value with the same id the id stays.
theorem get?_overlay {k : String} (h : x.get? k = y.get? k) : (overlay x y).get? k = y.get? k := by
  by_cases he : equal x y
  case pos => rw [overlay_of_equal he, h]
  case neg =>
    by_cases hd : Descends x y
    case neg => rw [overlay_of_not he hd]
    case pos =>
      cases x <;> cases y <;> first | exact absurd rfl hd.right.left | cases hd.left | skip
      case array.array xs ys =>
        rw [overlay_array he hd]
        rfl
      case object.object fields fields' =>
        rw [overlay_object he hd]
        simp only [JsonValue.get?] at h ⊢
        rw [lookup_overlayFields (descends_object.mp hd), h]
        cases fields'.lookup k
        case none   => rfl
        case some y => simp [overlay_self]

section Kids

variable {kids kids' : List (Part × JsonValue)} {c : JsonValue}

def overlayKids : (kids kids' : List (Part × JsonValue)) → List (Part × JsonValue)
  | [],             kids'          => kids'
  | _ :: _,         []             => []
  | (_, x) :: kids, (p, y) :: kids' => (p, overlay x y) :: overlayKids kids kids'

theorem zip_overlayItems {ps qs : List Part} (hp : ps.length = xs.length) (hq : qs.length = ys.length)
    (h : xs.length ≤ ys.length) : qs.zip (overlayItems xs ys) = overlayKids (ps.zip xs) (qs.zip ys) := by
  induction xs generalizing ps qs ys
  case nil => simp [overlayItems, overlayKids]
  case cons x xs hi =>
    cases ys
    case nil => simp at h
    case cons y ys =>
      cases ps
      case nil => simp at hp
      case cons p ps =>
        cases qs
        case nil => simp at hq
        case cons q qs =>
          simp only [overlayItems, List.zip_cons_cons, overlayKids, List.cons.injEq, true_and]
          exact hi (by simpa using hp) (by simpa using hq) (by simpa using h)

theorem map_overlayFields : (overlayFields fields fields').map (fun (name, v) => (Part.name name, v)) =
    overlayKids (fields.map fun (name, v) => (.name name, v)) (fields'.map fun (name, v) => (.name name, v)) := by
  induction fields generalizing fields'
  case nil => simp [overlayFields, overlayKids]
  case cons x fields hi => cases fields' <;> simp [overlayFields, overlayKids, hi]

theorem identity_inj {x y : JsonValue} (h : identity i x = identity i y) : x.get? "id" = y.get? "id" := by
  unfold identity at h
  cases hx : x.get? "id" <;> cases hy : y.get? "id" <;> rw [hx, hy] at h <;> cases h <;> rfl

-- The elements stay under their parts.
theorem parts_overlayItems (h : parts xs <+: parts ys) : parts (overlayItems xs ys) = parts ys := by
  have hl := h.length_le
  rw [length_parts, length_parts] at hl
  have hid : (overlayItems xs ys).mapIdx identity = ys.mapIdx identity := by
    refine List.ext_getElem? fun i => ?_
    rw [List.getElem?_mapIdx, List.getElem?_mapIdx, getElem?_overlayItems]
    cases hx : xs[i]?
    case none   => simp [hl]
    case some x =>
      have hi : i < xs.length := (List.getElem?_eq_some_iff.mp hx).fst
      obtain ⟨y, hy⟩ : ∃ y, ys[i]? = some y := ⟨_, List.getElem?_eq_getElem (hi.trans_le hl)⟩
      obtain ⟨rest, hrest⟩ := h
      have hpart : (parts xs)[i]? = (parts ys)[i]? := by
        rw [← hrest, List.getElem?_append_left (by simpa using hi)]
      rw [getElem?_parts, getElem?_parts, hx, hy, Option.map_some, Option.map_some, Option.some.injEq,
        Part.element.injEq] at hpart
      simp only [hy, Option.map_some, Option.some.injEq, identity, get?_overlay (identity_inj hpart.left)]
  rw [parts, parts, hid]

theorem children_overlay (he : ¬equal left right) (hd : Descends left right) :
    children (overlay left right) = overlayKids (children left) (children right) := by
  have hkind := hd.left
  have hvalue := hd.right.left
  cases left <;> cases right <;> first | exact absurd rfl hvalue | cases hkind | skip
  case array.array xs ys =>
    have hp := descends_array.mp hd
    have hl := hp.length_le
    rw [length_parts, length_parts] at hl
    rw [overlay_array he hd, children, children, children, parts_overlayItems hp]
    exact zip_overlayItems length_parts length_parts hl
  case object.object fields fields' =>
    rw [overlay_object he hd]
    exact map_overlayFields

theorem indexed_overlayKids (h : kids.map Prod.fst <+: kids'.map Prod.fst) : indexed i (overlayKids kids kids') p =
    (indexed i kids' p).map fun y => (y.1, ((indexed i kids p).map Prod.snd).elim y.2 (overlay · y.2)) := by
  induction kids generalizing kids' i
  case nil =>
    rw [overlayKids]
    simp [indexed]
  case cons x kids hi =>
    cases kids'
    case nil => simp at h
    case cons y kids' =>
      obtain ⟨p', x⟩ := x
      obtain ⟨p'', y⟩ := y
      obtain ⟨rfl, hp⟩ := List.cons_prefix_cons.mp h
      rw [overlayKids, indexed, indexed, indexed]
      split
      case isTrue  => rfl
      case isFalse => exact hi hp

end Kids

theorem written_of_not (hc : ¬(¬equal old new ∧ Descends old new)) :
    written (rowAt key position old q) (deltaAt key position old new q) = rowAt key position (overlay old new) q := by
  by_cases he : equal old new
  case pos => rw [deltaAt_equal he, written, if_pos rfl, overlay_of_equal he]
  case neg =>
    have hd : ¬Descends old new := fun hd => hc ⟨he, hd⟩
    rw [deltaAt_of_not he hd, overlay_of_not he hd, written]
    split
    case isTrue h  => exact h
    case isFalse _ => rfl

theorem kind_overlay (he : ¬equal old new) (hd : Descends old new) :
    kind (overlay old new) = kind old ∧ leaf (overlay old new) = leaf old := by
  have hkind := hd.left
  have hvalue := hd.right.left
  cases old <;> cases new <;> first | exact absurd rfl hvalue | cases hkind | skip
  case array.array   => rw [overlay_array he hd]; exact ⟨rfl, rfl⟩
  case object.object => rw [overlay_object he hd]; exact ⟨rfl, rfl⟩

-- What is under each path after the difference is written over the rows of the old value.
theorem written_overlay (ho : old.distinct) (hn : new.distinct) :
    written (rowAt key position old q) (deltaAt key position old new q) = rowAt key position (overlay old new) q := by
  induction q generalizing old new key position
  case nil =>
    by_cases hc : ¬equal old new ∧ Descends old new
    case neg => exact written_of_not hc
    case pos =>
      obtain ⟨he, hd⟩ := hc
      obtain ⟨hkind, hleaf⟩ := kind_overlay he hd
      rw [deltaAt_descends he hd, kidsDelta, written, if_pos rfl, rowAt, rowAt, hkind, hleaf]
  case cons p q hi =>
    by_cases hc : ¬equal old new ∧ Descends old new
    case neg => exact written_of_not hc
    case pos =>
      obtain ⟨he, hd⟩ := hc
      rw [deltaAt_descends he hd, rowAt, rowAt, children_overlay he hd, indexed_overlayKids hd.right.right, kidsDelta]
      cases hx : indexed 0 (children old) p
      case some x =>
        obtain ⟨i, l⟩ := x
        obtain ⟨r, hy⟩ := indexed_of_prefix hd.right.right (nodup_children hn) hx
        obtain ⟨_, hk⟩ := (indexed_eq_some (nodup_children ho)).mp hx
        obtain ⟨_, hk'⟩ := (indexed_eq_some (nodup_children hn)).mp hy
        rw [hy]
        exact hi (distinct_of_mem ho (List.mem_of_getElem? hk.right)) (distinct_of_mem hn (List.mem_of_getElem? hk'.right))
      case none =>
        cases hy : indexed 0 (children new) p
        case none   => simp [written]
        case some y =>
          obtain ⟨i, r⟩ := y
          cases hb : rowAt (p.key i) i r q <;> simp [written, hb]

section Tells

variable {kids kids' : List (Part × JsonValue)} {c : JsonValue} {rel : JsonScalar → JsonScalar → Bool}

theorem distinct_iff : v.distinct ↔ ((children v).map Prod.fst).Nodup ∧ ∀ x ∈ children v, x.2.distinct := by
  constructor
  case mp  => exact fun h => ⟨nodup_children h, fun x hx => distinct_of_mem h hx⟩
  case mpr =>
    rintro ⟨hn, hd⟩
    cases v
    case scalar => rfl
    case array items =>
      refine JsonValue.distinct_array.mpr fun v hv => ?_
      obtain ⟨i, hi⟩ := List.mem_iff_getElem?.mp hv
      have hl : i < (parts items).length := by simpa using (List.getElem?_eq_some_iff.mp hi).fst
      have hm : (children (.array items))[i]? = some ((parts items)[i], v) := by
        rw [children, List.getElem?_zip_eq_some]
        exact ⟨List.getElem?_eq_getElem hl, hi⟩
      exact hd _ (List.mem_of_getElem? hm)
    case object fields =>
      rw [map_children_object] at hn
      exact JsonValue.distinct_object.mpr ⟨.of_map _ hn, fun x hx => hd (.name x.1, x.2) (List.mem_map.mpr ⟨x, hx, rfl⟩)⟩

theorem keys_overlayKids (h : kids.map Prod.fst <+: kids'.map Prod.fst) :
    (overlayKids kids kids').map Prod.fst = kids'.map Prod.fst := by
  induction kids generalizing kids'
  case nil => rw [overlayKids]
  case cons x kids hi =>
    cases kids'
    case nil => simp at h
    case cons y kids' => rw [overlayKids, List.map_cons, List.map_cons, hi (List.cons_prefix_cons.mp h).right]

theorem mem_overlayKids (h : (p, v) ∈ overlayKids kids kids') :
    (p, v) ∈ kids' ∨ ∃ p', ∃ l r, (p', l) ∈ kids ∧ (p, r) ∈ kids' ∧ v = overlay l r := by
  induction kids generalizing kids'
  case nil =>
    rw [overlayKids] at h
    exact .inl h
  case cons x kids hi =>
    cases kids'
    case nil => simp [overlayKids] at h
    case cons y kids' =>
      rw [overlayKids, List.mem_cons] at h
      obtain h | h := h
      · obtain ⟨rfl, rfl⟩ := Prod.mk.inj h
        exact .inr ⟨x.1, x.2, y.2, by simp, by simp, rfl⟩
      · obtain hm | ⟨p', l, r, hl, hr, he⟩ := hi h
        · exact .inl (List.mem_cons_of_mem _ hm)
        · exact .inr ⟨p', l, r, List.mem_cons_of_mem _ hl, List.mem_cons_of_mem _ hr, he⟩

theorem distinct_overlay (ho : old.distinct) (hn : new.distinct) : (overlay old new).distinct := by
  induction old using children_induction generalizing new
  case h old hi =>
    by_cases he : equal old new
    case pos => rwa [overlay_of_equal he]
    case neg =>
      by_cases hd : Descends old new
      case neg => rwa [overlay_of_not he hd]
      case pos =>
        rw [distinct_iff, children_overlay he hd, keys_overlayKids hd.right.right]
        refine ⟨nodup_children hn, fun x hx => ?_⟩
        obtain ⟨p, v⟩ := x
        obtain hm | ⟨p', l, r, hl, hr, rfl⟩ := mem_overlayKids hx
        · exact distinct_of_mem hn hm
        · exact hi (p', l) hl (distinct_of_mem ho hl) (distinct_of_mem hn hr)

-- Fields under the same names in one order are alike one by one.
theorem alike_fields (hn : (fields.map Prod.fst).Nodup) (hk : fields.map Prod.fst = fields'.map Prod.fst) :
    (JsonValue.object fields).alike rel (.object fields') ↔ List.Forall₂ (fun a b => a.2.alike rel b.2) fields fields' := by
  rw [JsonValue.alike_object]
  induction fields generalizing fields'
  case nil =>
    cases fields'
    case nil  => simp
    case cons => simp at hk
  case cons x fields hi =>
    cases fields'
    case nil => simp at hk
    case cons y fields' =>
      obtain ⟨l, x⟩ := x
      obtain ⟨l', y⟩ := y
      obtain ⟨rfl, hkeys⟩ := List.cons.inj hk
      obtain ⟨hl, hn⟩ := List.nodup_cons.mp hn
      rw [List.forall₂_cons, ← hi hn hkeys]
      simp only [JsonValue.lookup_cons_ite]
      have hfresh : fields.lookup l = none ∧ fields'.lookup l = none := by
        have hnone {fields : List (String × JsonValue)} (h : l ∉ fields.map Prod.fst) : fields.lookup l = none := by
          rw [← Option.not_isSome_iff_eq_none, JsonValue.isSome_lookup]
          rintro ⟨z, hz, rfl⟩
          exact h (List.mem_map_of_mem hz)
        exact ⟨hnone hl, hnone (hkeys ▸ hl)⟩
      constructor
      case mp =>
        intro h
        refine ⟨?_, fun k => ?_⟩
        · have hhead := h l
          simp only [if_true] at hhead
          cases hhead
          assumption
        · by_cases he : k = l
          case pos =>
            subst he
            rw [hfresh.left, hfresh.right]
            exact .none
          case neg => simpa only [if_neg he] using h k
      case mpr =>
        rintro ⟨hhead, hrest⟩ k
        split
        case isTrue  => exact .some hhead
        case isFalse => exact hrest k

-- Two containers with the same parts are alike if their children are.
theorem alike_children (hk : kind x = kind y) (hv : kind x ≠ .value) (hx : x.distinct)
    (hp : (children x).map Prod.fst = (children y).map Prod.fst) :
    x.alike rel y ↔ List.Forall₂ (fun a b => a.2.alike rel b.2) (children x) (children y) := by
  cases x <;> cases y <;> try first | exact absurd rfl hv | cases hk
  case array.array xs ys =>
    have hsnd (items : List JsonValue) : (children (.array items)).map Prod.snd = items := by
      rw [children, List.map_snd_zip (by simp)]
    have hzip : List.Forall₂ (fun a b => a.2.alike rel b.2) (children (.array xs)) (children (.array ys)) ↔
        List.Forall₂ (fun a b => a.alike rel b) ((children (.array xs)).map Prod.snd) ((children (.array ys)).map Prod.snd) := by
      rw [List.forall₂_map_left_iff, List.forall₂_map_right_iff]
    rw [JsonValue.alike_array, hzip, hsnd, hsnd]
  case object.object fields fields' =>
    rw [map_children_object, map_children_object] at hp
    have hnames : fields.map Prod.fst = fields'.map Prod.fst := List.map_injective_iff.mpr (fun _ _ h => Part.name.inj h) hp
    rw [alike_fields (JsonValue.distinct_object.mp hx).left hnames, children, children, List.forall₂_map_left_iff,
      List.forall₂_map_right_iff]

theorem forall₂_overlayKids (h : kids.map Prod.fst <+: kids'.map Prod.fst) (hn : (kids'.map Prod.fst).Nodup)
    (hr : ∀ a, rel a a) : List.Forall₂ (fun a b => a.2.alike rel b.2) (overlayKids kids kids') kids' ↔
      ∀ p l r, kids.lookup p = some l → kids'.lookup p = some r → (overlay l r).alike rel r := by
  induction kids generalizing kids'
  case nil =>
    rw [overlayKids]
    simp [List.forall₂_same, JsonValue.alike_refl hr]
  case cons x kids hi =>
    cases kids'
    case nil => simp at h
    case cons y kids' =>
      obtain ⟨p, x⟩ := x
      obtain ⟨p', y⟩ := y
      obtain ⟨rfl, hp⟩ := List.cons_prefix_cons.mp h
      obtain ⟨hl, hn⟩ := List.nodup_cons.mp hn
      rw [overlayKids, List.forall₂_cons, hi hp hn]
      constructor
      case mp =>
        rintro ⟨hhead, hrest⟩ q l r hq hq'
        rw [List.lookup_cons] at hq hq'
        by_cases he : q = p
        case pos =>
          simp only [he, beq_self_eq_true, Option.some.injEq] at hq hq'
          exact hq ▸ hq' ▸ hhead
        case neg =>
          simp only [beq_eq_false_iff_ne.mpr he] at hq hq'
          exact hrest q l r hq hq'
      case mpr =>
        intro h
        refine ⟨h p x y (by simp) (by simp), fun q l r hq hq' => h q l r ?_ ?_⟩
        all_goals
          have he : q ≠ p := by
            rintro rfl
            exact hl (List.mem_map.mpr ⟨_, mem_of_lookup hq', rfl⟩)
          rw [List.lookup_cons]
          simp only [beq_eq_false_iff_ne.mpr he]
          assumption

theorem tells_iff : Tells old new ↔ (equal old new → old.alike JsonScalar.strict new) ∧
    (¬equal old new → Descends old new → ∀ p l r, (children old).lookup p = some l → (children new).lookup p = some r →
      Tells l r) := by
  constructor
  case mp =>
    intro h
    refine ⟨fun he => h [] old new rfl he, fun he hd p l r hl hr q l' r' hc => h (p :: q) l' r' ?_⟩
    rw [compared, if_pos ⟨he, hd⟩, hl, hr]
    exact hc
  case mpr =>
    rintro ⟨hequal, hkids⟩ q l r hc he
    cases q
    case nil =>
      cases hc
      exact hequal he
    case cons p q =>
      rw [compared] at hc
      split at hc
      case isFalse  => cases hc
      case isTrue h =>
        split at hc
        case h_1 l' r' hl hr => exact hkids h.left h.right p l' r' hl hr q l r hc he
        case h_2             => cases hc

-- The overlay is the new value exactly if whatever the walk finds equal is the same.
theorem overlay_alike_iff (ho : old.distinct) (hn : new.distinct) :
    (overlay old new).alike JsonScalar.strict new ↔ Tells old new := by
  induction old using children_induction generalizing new
  case h old hi =>
    rw [tells_iff]
    by_cases he : equal old new
    case pos => simp [overlay_of_equal he, he]
    case neg =>
      by_cases hd : Descends old new
      case neg => simp [overlay_of_not he hd, he, hd, JsonValue.alike_refl JsonScalar.strict_refl]
      case pos =>
        obtain ⟨hkind, _⟩ := kind_overlay he hd
        have hkeys := keys_overlayKids hd.right.right
        rw [alike_children (hkind.trans hd.left) (hkind ▸ hd.right.left) (distinct_overlay ho hn)
          (by rw [children_overlay he hd, hkeys]), children_overlay he hd,
          forall₂_overlayKids hd.right.right (nodup_children hn) JsonScalar.strict_refl]
        refine ⟨fun h => ⟨fun h' => absurd h' he, fun _ _ p l r hl hr => ?_⟩, fun h p l r hl hr => ?_⟩
        all_goals
          have hml := mem_of_lookup hl
          have hmr := mem_of_lookup hr
          have hchild := hi (p, l) hml (distinct_of_mem ho hml) (distinct_of_mem hn hmr)
        · exact hchild.mp (h p l r hl hr)
        · exact hchild.mpr (h.right he hd p l r hl hr)

end Tells

end Ledger
