import Agentihooks.Ledger.Theorems.Rows

-- What a diff finds of two documents, path by path, and what writing it does to the stored rows.

namespace Ledger

variable {p : Part} {path q : Path} {key : Key} {position i j : ℕ} {rows : Rows}
variable {left right l r : JsonValue} {before after : Rows} {xs ys : List (Part × JsonValue)} {f : Path → Option Row}
variable {v : JsonValue}

-- The walk goes on below two containers of one kind if the second one has the parts of the first one first.
def Descends (left right : JsonValue) : Prop :=
  kind left = kind right ∧ kind left ≠ .value ∧ (children left).map Prod.fst <+: (children right).map Prod.fst

instance : Decidable (Descends left right) :=
  inferInstanceAs (Decidable (_ ∧ _ ∧ _))

-- The rows before and after that the walk finds under a path below two values.
def deltaAt (key : Key) (position : ℕ) (left right : JsonValue) : Path → Option Row × Option Row
  | []        =>
    if equal left right ∨ Descends left right then
      (none, none)
    else
      (rowAt key position left [], rowAt key position right [])
  | p :: path =>
    if equal left right then
      (none, none)
    else if Descends left right then
      match indexed 0 (children left) p, indexed 0 (children right) p with
      | some (_, l), some (i, r) => deltaAt (p.key i) i l r path
      | none,        some (i, r) => (none, rowAt (p.key i) i r path)
      | _,           none        => (none, none)
    else
      (rowAt key position left (p :: path), rowAt key position right (p :: path))

def walkKids (before after : Rows) (path : Path) (i : ℕ) : (xs ys : List (Part × JsonValue)) → Rows × Rows
  | [],           ys           => (before, visitKids after path i ys)
  | (_, x) :: xs, (p, y) :: ys =>
    let (before, after) := walk before after (path ++ [p]) (p.key i) i x y
    walkKids before after path (i + 1) xs ys
  | _ :: _,       []           => (before, after)

theorem walkItems_eq {ps : List Part} {xs ys : List JsonValue} (h : ∀ p ∈ ps, ∀ i, p.key i = .index i)
    (hl : ps.length = ys.length) (hs : xs.length ≤ ys.length) (qs : List Part) (hq : qs.length = xs.length) :
    walkItems before after path ps i xs ys = walkKids before after path i (qs.zip xs) (ps.zip ys) := by
  induction xs generalizing before after ps ys i qs
  case nil => simp [walkItems, walkKids, visitItems_eq h]
  case cons x xs hi =>
    cases qs
    case nil => simp at hq
    case cons q qs =>
      cases ys
      case nil => simp at hs
      case cons y ys =>
        cases ps
        case nil => simp at hl
        case cons p ps =>
          rw [List.forall_mem_cons] at h
          simp only [walkItems, List.zip_cons_cons, walkKids, h.left]
          exact hi h.right (by simpa using hl) (by simpa using hs) qs (by simpa using hq)

theorem walkFields_eq {xs ys : List (String × JsonValue)} (h : xs.map Prod.fst <+: ys.map Prod.fst) :
    walkFields before after path i xs ys =
      walkKids before after path i (xs.map fun (name, v) => (.name name, v)) (ys.map fun (name, v) => (.name name, v)) := by
  induction xs generalizing before after ys i
  case nil => simp [walkFields, walkKids, visitFields_eq]
  case cons x xs hi =>
    cases ys
    case nil => simp at h
    case cons y ys =>
      obtain ⟨hxy, h⟩ := List.cons_prefix_cons.mp h
      simp only [walkFields, List.map_cons, walkKids, Part.key, hxy]
      exact hi h

theorem map_children_object {fields : List (String × JsonValue)} :
    (children (.object fields)).map Prod.fst = (fields.map Prod.fst).map Part.name := by
  simp [children]

theorem prefix_map_name {xs ys : List String} : xs.map Part.name <+: ys.map Part.name ↔ xs <+: ys := by
  induction xs generalizing ys
  case nil => simp
  case cons x xs hi => cases ys <;> simp [List.cons_prefix_cons, hi]

theorem walk_eq : walk before after path key position left right =
    if equal left right then (before, after)
    else if Descends left right then walkKids before after path 0 (children left) (children right)
    else (visit before path key position left, visit after path key position right) := by
  cases left
  case scalar => simp [walk, Descends, kind]
  case array xs =>
    cases right
    case array ys =>
      have hd : Descends (.array xs) (.array ys) ↔ parts xs <+: parts ys := by
        simp [Descends, kind, map_children_array]
      simp only [walk, hd]
      split
      case isTrue  => rfl
      case isFalse =>
        split
        case isTrue hp =>
          have hl := hp.length_le
          rw [length_parts, length_parts] at hl
          exact walkItems_eq key_of_mem_parts length_parts hl (parts xs) length_parts
        case isFalse => rfl
    all_goals simp [walk, Descends, kind]
  case object xs =>
    cases right
    case object ys =>
      have hd : Descends (.object xs) (.object ys) ↔ xs.map Prod.fst <+: ys.map Prod.fst := by
        rw [Descends, map_children_object, map_children_object, prefix_map_name]
        simp [kind]
      simp only [walk, hd]
      split
      case isTrue  => rfl
      case isFalse =>
        split
        case isTrue hp => exact walkFields_eq hp
        case isFalse   => rfl
    all_goals simp [walk, Descends, kind]

-- What the walk over the children of two containers finds below them.
def kidsDelta (i : ℕ) (xs ys : List (Part × JsonValue)) : Path → Option Row × Option Row
  | []     => (none, none)
  | p :: q =>
    match indexed i xs p, indexed i ys p with
    | some (_, l), some (j, r) => deltaAt (p.key j) j l r q
    | none,        some (j, r) => (none, rowAt (p.key j) j r q)
    | _,           none        => (none, none)

-- What a walk does to the rows before and after.
def Walks (before after : Rows) (both : Rows × Rows) (path : Path) (delta : Path → Option Row × Option Row) : Prop :=
  Puts before both.1 path (fun q => (delta q).1) ∧ Puts after both.2 path (fun q => (delta q).2)

theorem puts_none (h : ∀ q, f q = none) : Puts rows rows path f where
  within q := by simp [h]
  beyond _ _ := rfl

theorem walks_kids (hp : xs.map Prod.fst <+: ys.map Prod.fst) (hn : (ys.map Prod.fst).Nodup)
    (hd : ∀ y ∈ ys, y.2.distinct) (hw : ∀ x ∈ xs, ∀ y ∈ ys, ∀ before after path key position,
      Walks before after (walk before after path key position x.2 y.2) path (deltaAt key position x.2 y.2)) :
    Walks before after (walkKids before after path i xs ys) path (kidsDelta i xs ys) := by
  induction xs generalizing ys before after i
  case nil =>
    constructor
    case left =>
      refine puts_none fun q => ?_
      cases q
      case nil => rfl
      case cons p q => cases h : indexed i ys p <;> simp [kidsDelta, indexed, h]
    case right =>
      refine (puts_kids hn fun y hy _ _ _ _ => puts_visit (hd y hy)).congr fun q => ?_
      cases q
      case nil => rfl
      case cons p q => cases h : indexed i ys p <;> simp [kidsDelta, kidsAt, indexed, h]
  case cons x xs hi =>
    cases ys
    case nil => simp at hp
    case cons y ys =>
      obtain ⟨p', x⟩ := x
      obtain ⟨p'', y⟩ := y
      obtain ⟨rfl, hs⟩ := List.cons_prefix_cons.mp hp
      obtain ⟨hy, hn⟩ := List.nodup_cons.mp hn
      have hx : p' ∉ xs.map Prod.fst := fun h => hy (hs.subset h)
      have hf := hw (p', x) (by simp) (p', y) (by simp) before after (path ++ [p']) (p'.key i) i
      have hr {b a : Rows} : Walks b a (walkKids b a path (i + 1) xs ys) path (kidsDelta (i + 1) xs ys) :=
        hi hs hn (fun z hz => hd z (by simp [hz])) fun x hx z hz => hw x (by simp [hx]) z (by simp [hz])
      have hz : ∀ q, kidsDelta (i + 1) xs ys (p' :: q) = (none, none) := by
        intro q
        rw [kidsDelta, indexed_eq_none.mpr hx, indexed_eq_none.mpr hy]
      rw [walkKids]
      constructor
      case left =>
        refine (hf.left.cons hr.left rfl fun q => by rw [hz]).congr fun q => ?_
        cases q
        case nil => rfl
        case cons p q => by_cases he : p = p' <;> simp [kidsDelta, indexed, he]
      case right =>
        refine (hf.right.cons hr.right rfl fun q => by rw [hz]).congr fun q => ?_
        cases q
        case nil => rfl
        case cons p q => by_cases he : p = p' <;> simp [kidsDelta, indexed, he]

theorem deltaAt_descends (he : ¬equal left right) (hd : Descends left right) :
    deltaAt key position left right q = kidsDelta 0 (children left) (children right) q := by
  cases q
  case nil => simp [deltaAt, hd, kidsDelta]
  case cons p q =>
    rw [deltaAt, if_neg he, if_pos hd, kidsDelta]

theorem deltaAt_of_not (he : ¬equal left right) (hd : ¬Descends left right) :
    deltaAt key position left right q = (rowAt key position left q, rowAt key position right q) := by
  cases q <;> simp [deltaAt, he, hd]

theorem deltaAt_equal (he : equal left right) : deltaAt key position left right q = (none, none) := by
  cases q <;> simp [deltaAt, he]

theorem walks (hl : left.distinct) (hr : right.distinct) :
    Walks before after (walk before after path key position left right) path (deltaAt key position left right) := by
  induction left using children_induction generalizing right before after path key position
  case h left hi =>
    rw [walk_eq]
    split
    case isTrue he =>
      exact ⟨puts_none fun q => by rw [deltaAt_equal he], puts_none fun q => by rw [deltaAt_equal he]⟩
    case isFalse he =>
      split
      case isTrue hd =>
        have hk : Walks before after _ path (kidsDelta 0 (children left) (children right)) :=
          walks_kids hd.right.right (nodup_children hr) (fun y hy => distinct_of_mem hr hy)
            fun x hx y hy _ _ _ _ _ => hi x hx (distinct_of_mem hl hx) (distinct_of_mem hr hy)
        exact ⟨hk.left.congr fun q => by rw [deltaAt_descends he hd], hk.right.congr fun q => by rw [deltaAt_descends he hd]⟩
      case isFalse hd =>
        exact ⟨(puts_visit hl).congr fun q => by rw [deltaAt_of_not he hd],
          (puts_visit hr).congr fun q => by rw [deltaAt_of_not he hd]⟩

theorem lookup_diff (hl : left.distinct) (hr : right.distinct) :
    ((diff left right).1.lookup q, (diff left right).2.lookup q) = deltaAt .root 0 left right q := by
  have hw : Walks ∅ ∅ (diff left right) [] (deltaAt .root 0 left right) := walks hl hr
  have hb := hw.left.within q
  have ha := hw.right.within q
  simp only [List.nil_append, AList.lookup_empty, Option.or_none] at hb ha
  rw [hb, ha]

section Write

-- Two rows that read the same: numbers of one value may differ in their type, and fields in their position.
structure Row.Agrees (a b : Row) : Prop where
  key      : a.key = b.key
  kind     : a.kind = b.kind
  value    : a.value.loose b.value
  position : ∀ i, a.key = .index i → a.position = b.position

def Agree (a b : Option Row) : Prop :=
  Option.Rel Row.Agrees a b

variable {a b c : Option Row} {old new : JsonValue}

theorem Row.Agrees.refl (a : Row) : a.Agrees a where
  key          := rfl
  kind         := rfl
  value        := JsonScalar.loose_refl a.value
  position _ _ := rfl

theorem Row.Agrees.symm {a b : Row} (h : a.Agrees b) : b.Agrees a where
  key           := h.key.symm
  kind          := h.kind.symm
  value         := JsonScalar.loose_symm _ _ h.value
  position i hi := (h.position i (h.key.trans hi)).symm

theorem Row.Agrees.trans {a b c : Row} (h : a.Agrees b) (h' : b.Agrees c) : a.Agrees c where
  key           := h.key.trans h'.key
  kind          := h.kind.trans h'.kind
  value         := JsonScalar.loose_trans _ _ _ h.value h'.value
  position i hi := (h.position i hi).trans (h'.position i (h.key ▸ hi))

theorem Agree.refl (a : Option Row) : Agree a a := by
  cases a
  case none   => exact .none
  case some a => exact .some (.refl a)

theorem Agree.symm (h : Agree a b) : Agree b a := by
  cases h
  case none   => exact .none
  case some h => exact .some h.symm

theorem Agree.trans (h : Agree a b) (h' : Agree b c) : Agree a c := by
  cases h
  case none => exact h'
  case some h =>
    cases h'
    case some h' => exact .some (h.trans h')

-- The value under a path.
def valueAt (v : JsonValue) : Path → Option JsonValue
  | []     => some v
  | p :: q => ((children v).lookup p).bind (valueAt · q)

-- Where both have an equal array under one path, its elements are under the same paths as well.
def KeepsParts (old new : JsonValue) : Prop :=
  ∀ q xs ys, valueAt old q = some (.array xs) → valueAt new q = some (.array ys) →
    JsonValue.alike JsonScalar.loose (.array xs) (.array ys) → parts xs = parts ys

theorem lookup_children : (children v).lookup p = (indexed i (children v) p).map Prod.snd := by
  generalize children v = kids
  induction kids generalizing i
  case nil => rfl
  case cons x kids hi =>
    obtain ⟨p', c⟩ := x
    rw [indexed, List.lookup_cons]
    by_cases he : p = p'
    case pos => simp [he]
    case neg =>
      have hb : (p == p') = false := by simpa using he
      simp only [hb, if_neg he]
      exact hi

theorem KeepsParts.child (h : KeepsParts old new) (hl : (children old).lookup p = some l)
    (hr : (children new).lookup p = some r) : KeepsParts l r := by
  intro q xs ys hx hy
  refine h (p :: q) xs ys ?_ ?_
  case refine_1 => rw [valueAt, hl]; exact hx
  case refine_2 => rw [valueAt, hr]; exact hy

theorem indexed_of_prefix (hp : xs.map Prod.fst <+: ys.map Prod.fst) (hn : (ys.map Prod.fst).Nodup)
    (hx : indexed 0 xs p = some (i, l)) : ∃ r, indexed 0 ys p = some (i, r) := by
  obtain ⟨k, rfl, hk⟩ := (indexed_eq_some (hn.sublist hp.sublist)).mp hx
  obtain ⟨rest, hr⟩ := hp
  have hi : (ys.map Prod.fst)[k]? = some p := by
    have hl : k < (xs.map Prod.fst).length := by simpa using (List.getElem?_eq_some_iff.mp hk).fst
    rw [← hr, List.getElem?_append_left hl, List.getElem?_map, hk]
    rfl
  rw [List.getElem?_map] at hi
  obtain ⟨⟨_, r⟩, hy, rfl⟩ := Option.map_eq_some_iff.mp hi
  exact ⟨r, (indexed_eq_some hn).mpr ⟨k, rfl, hy⟩⟩

-- What is stored under a path once the rows before and after are written.
def written (s : Option Row) (delta : Option Row × Option Row) : Option Row :=
  if delta.1 = delta.2 then s else delta.2

variable {s : Option Row}

theorem lookup_deleted {paths : List Path} :
    ((paths.map fun path => (path, after.lookup path)).foldl
      (fun stored (path, row) => if row.isNone then stored.erase path else stored) rows).lookup q =
    if q ∈ paths ∧ after.lookup q = none then none else rows.lookup q := by
  induction paths generalizing rows
  case nil => simp
  case cons path paths hi =>
    rw [List.map_cons, List.foldl_cons, hi]
    cases ha : after.lookup path
    case some row =>
      by_cases he : q = path
      case pos =>
        subst he
        simp [ha]
      case neg => simp [he]
    case none =>
      by_cases he : q = path
      case pos =>
        subst he
        simp [ha, AList.lookup_erase]
      case neg => simp [he, AList.lookup_erase_ne he]

theorem lookup_upserted {paths : List Path} :
    ((paths.map fun path => (path, after.lookup path)).foldl
      (fun stored (path, row) => row.elim stored (stored.insert path ·)) rows).lookup q =
    if q ∈ paths ∧ (after.lookup q).isSome then after.lookup q else rows.lookup q := by
  induction paths generalizing rows
  case nil => simp
  case cons path paths hi =>
    rw [List.map_cons, List.foldl_cons, hi]
    cases ha : after.lookup path
    case none =>
      by_cases he : q = path
      case pos =>
        subst he
        simp [ha]
      case neg => simp [he]
    case some row =>
      by_cases he : q = path
      case pos =>
        subst he
        simp [ha]
      case neg => simp [he, AList.lookup_insert_ne he]

theorem mem_changed : q ∈ (writeRows rows before after).2 ↔ before.lookup q ≠ after.lookup q := by
  have hn {rows : Rows} : q ∉ rows.keys ↔ rows.lookup q = none := by
    rw [← AList.mem_keys, AList.lookup_eq_none]
  simp only [writeRows, changes, List.map_map, Function.comp_def, List.map_id', List.mem_filter, List.mem_union_iff,
    decide_eq_true_iff, and_iff_right_iff_imp]
  intro hne
  by_contra hm
  rw [not_or, hn, hn] at hm
  exact hne (hm.left.trans hm.right.symm)

theorem lookup_writeRows : (writeRows rows before after).1.lookup q =
    written (rows.lookup q) (before.lookup q, after.lookup q) := by
  have hm := @mem_changed q rows before after
  simp only [writeRows, changes, List.map_map, Function.comp_def, List.map_id'] at hm ⊢
  simp only [lookup_upserted, lookup_deleted, hm, written]
  by_cases he : before.lookup q = after.lookup q
  case pos => simp [he]
  case neg =>
    cases ha : after.lookup q
    case none     => simp [ha ▸ he]
    case some row => simp [ha ▸ he]

-- The stored rows read as a document.
def Stores (rows : Rows) (v : JsonValue) : Prop :=
  ∀ q, Agree (rows.lookup q) (rowAt .root 0 v q)

theorem lookup_unchanged (h : q ∉ (writeRows rows before after).2) :
    (writeRows rows before after).1.lookup q = rows.lookup q := by
  rw [mem_changed, not_not] at h
  rw [lookup_writeRows, written, if_pos h]

end Write

end Ledger
