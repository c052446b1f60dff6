import Agentihooks.Ledger.Rows

-- What the rows of a document are, path by path, and what a write does to the row under each path.

namespace Ledger

variable {v c : JsonValue} {p : Part} {path q : Path} {key : Key} {position i j : ℕ} {rows : Rows}
variable {kids : List (Part × JsonValue)}

-- The child under a part, with its place.
def indexed (i : ℕ) : List (Part × JsonValue) → Part → Option (ℕ × JsonValue)
  | [],           _ => none
  | (p', v) :: kids, p => if p = p' then some (i, v) else indexed (i + 1) kids p

-- The row that a value has under a path below it.
def rowAt (key : Key) (position : ℕ) (v : JsonValue) : Path → Option Row
  | []        => some ⟨key, position, kind v, leaf v⟩
  | p :: path => (indexed 0 (children v) p).bind fun (i, child) => rowAt (p.key i) i child path

theorem indexed_eq_none : indexed i kids p = none ↔ p ∉ kids.map Prod.fst := by
  induction kids generalizing i
  case nil => simp [indexed]
  case cons x kids hi =>
    rw [indexed]
    split
    case isTrue h  => simp [h]
    case isFalse h => simp [h, hi]

theorem indexed_eq_some (h : (kids.map Prod.fst).Nodup) :
    indexed i kids p = some (j, c) ↔ ∃ k, j = i + k ∧ kids[k]? = some (p, c) := by
  induction kids generalizing i
  case nil => simp [indexed]
  case cons x kids hi =>
    obtain ⟨p', v'⟩ := x
    obtain ⟨hx, hn⟩ := List.nodup_cons.mp h
    rw [indexed]
    split
    case isTrue hp =>
      subst hp
      constructor
      case mp =>
        intro hc
        cases hc
        exact ⟨0, rfl, rfl⟩
      case mpr =>
        rintro ⟨k, rfl, hk⟩
        cases k
        case zero =>
          simp only [List.getElem?_cons_zero, Option.some.injEq, Prod.mk.injEq, true_and] at hk
          simp [hk]
        case succ k =>
          rw [List.getElem?_cons_succ] at hk
          have hm := List.mem_of_getElem? hk
          exact absurd (List.mem_map_of_mem (f := Prod.fst) hm) hx
    case isFalse hp =>
      rw [hi hn]
      constructor
      case mp =>
        rintro ⟨k, rfl, hk⟩
        exact ⟨k + 1, by omega, by simpa using hk⟩
      case mpr =>
        rintro ⟨k, rfl, hk⟩
        cases k
        case zero =>
          simp only [List.getElem?_cons_zero, Option.some.injEq, Prod.mk.injEq] at hk
          exact absurd hk.left.symm hp
        case succ k => exact ⟨k, by omega, by simpa using hk⟩

section Parts

variable {items : List JsonValue}

@[simp]
theorem length_parts : (parts items).length = items.length := by
  simp [parts]

theorem getElem?_parts : (parts items)[i]? =
    items[i]?.map fun item => .element (identity i item) (((items.mapIdx identity).take i).count (identity i item)) := by
  simp [parts]
  rfl

-- Of two elements with one identity the later one has more of them before it.
theorem nodup_parts : (parts items).Nodup := by
  rw [List.nodup_iff_getElem?_ne_getElem?]
  intro i j hij hj he
  have hl : j < items.length := by simpa using hj
  have hi : i < items.length := hij.trans hl
  simp only [getElem?_parts, List.getElem?_eq_getElem hi, List.getElem?_eq_getElem hl, Option.map_some,
    Option.some.injEq, Part.element.injEq] at he
  obtain ⟨hid, hc⟩ := he
  rw [← hid] at hc
  have hlt := List.Sublist.count_le (identity i items[i]) (List.take_sublist_take_left (l := items.mapIdx identity) hij)
  rw [List.take_add_one, List.count_append, List.getElem?_mapIdx, List.getElem?_eq_getElem hi] at hlt
  simp at hlt
  omega

theorem map_children_array : (children (.array items)).map Prod.fst = parts items := by
  simp [children, List.map_fst_zip]

end Parts

theorem nodup_children (h : v.distinct) : ((children v).map Prod.fst).Nodup := by
  cases v
  case scalar => simp [children]
  case array  =>
    rw [map_children_array]
    exact nodup_parts
  case object fields =>
    have hn := (JsonValue.distinct_object.mp h).left
    have hm : (children (.object fields)).map Prod.fst = (fields.map Prod.fst).map Part.name := by
      simp [children]
    rw [hm]
    exact hn.map fun a b hab => Part.name.inj hab

theorem distinct_of_mem (h : v.distinct) (hm : (p, c) ∈ children v) : c.distinct := by
  cases v
  case scalar => simp [children] at hm
  case array items => exact JsonValue.distinct_array.mp h c (List.of_mem_zip hm).right
  case object fields =>
    obtain ⟨x, hx, he⟩ := List.mem_map.mp hm
    cases he
    exact (JsonValue.distinct_object.mp h).right x hx

theorem children_induction {P : JsonValue → Prop} (h : ∀ v, (∀ x ∈ children v, P x.2) → P v) (v : JsonValue) : P v := by
  induction v using JsonValue.ind
  case scalar s => exact h _ (by simp [children])
  case array items hi => exact h _ fun x hx => hi x.2 (List.of_mem_zip hx).right
  case object fields hi =>
    refine h _ fun x hx => ?_
    obtain ⟨y, hy, rfl⟩ := List.mem_map.mp hx
    exact hi y hy

-- The rows of the children of a container, whichever they are.
def visitKids (rows : Rows) (path : Path) (i : ℕ) : List (Part × JsonValue) → Rows
  | []             => rows
  | (p, v) :: kids => visitKids (visit rows (path ++ [p]) (p.key i) i v) path (i + 1) kids

theorem visitItems_eq {parts : List Part} {items : List JsonValue} (h : ∀ p ∈ parts, ∀ i, p.key i = .index i) :
    visitItems rows path parts i items = visitKids rows path i (parts.zip items) := by
  induction items generalizing rows parts i
  case nil => simp [visitItems, visitKids]
  case cons item items hi =>
    cases parts
    case nil => simp [visitItems, visitKids]
    case cons p parts =>
      rw [List.forall_mem_cons] at h
      rw [visitItems, List.zip_cons_cons, visitKids, h.left, hi h.right]

theorem visitFields_eq {fields : List (String × JsonValue)} :
    visitFields rows path i fields = visitKids rows path i (fields.map fun (name, v) => (.name name, v)) := by
  induction fields generalizing rows i
  case nil => simp [visitFields, visitKids]
  case cons x fields hi => rw [visitFields, List.map_cons, visitKids, hi, Part.key]

theorem key_of_mem_parts {items : List JsonValue} : ∀ p ∈ parts items, ∀ i, p.key i = .index i := by
  intro p hp i
  obtain ⟨j, hj⟩ := List.mem_iff_getElem?.mp hp
  rw [getElem?_parts] at hj
  obtain ⟨item, _, rfl⟩ := Option.map_eq_some_iff.mp hj
  rfl

theorem visit_eq : visit rows path key position v =
    visitKids (rows.insert path ⟨key, position, kind v, leaf v⟩) path 0 (children v) := by
  cases v
  case scalar => rfl
  case array  => rw [visit, visitItems_eq key_of_mem_parts]; rfl
  case object => rw [visit, visitFields_eq]; rfl

-- What a visit of a value does to the rows: it puts those of the value where they belong.
structure Puts (rows rows' : Rows) (path : Path) (at_ : Path → Option Row) : Prop where
  within : ∀ q, rows'.lookup (path ++ q) = (at_ q).or (rows.lookup (path ++ q))
  beyond : ∀ q, ¬path <+: q → rows'.lookup q = rows.lookup q

variable {rows' rows'' : Rows} {f g : Path → Option Row}

theorem Puts.congr (h : Puts rows rows' path f) (he : ∀ q, f q = g q) : Puts rows rows' path g where
  within q := by rw [h.within, he]
  beyond   := h.beyond

-- What is put under one part first stays if nothing else goes there.
theorem Puts.cons (h : Puts rows rows' (path ++ [p]) f) (h' : Puts rows' rows'' path g) (hn : g [] = none)
    (hp : ∀ q, g (p :: q) = none) :
    Puts rows rows'' path (fun | [] => none | p' :: q => if p' = p then f q else g (p' :: q)) where
  beyond q hq := by
    rw [h'.beyond q hq, h.beyond q fun hf => hq ((List.prefix_append path [p]).trans hf)]
  within q := by
    rw [h'.within q]
    cases q
    case nil =>
      rw [hn]
      refine h.beyond (path ++ []) fun hf => ?_
      have hl := hf.length_le
      simp only [List.length_append, List.length_singleton, List.length_nil] at hl
      omega
    case cons p' q =>
      by_cases he : p' = p
      case pos =>
        subst he
        have hs : path ++ p' :: q = (path ++ [p']) ++ q := by simp
        rw [hp, hs, h.within q]
        simp
      case neg =>
        rw [h.beyond (path ++ p' :: q) (by simpa [List.prefix_append_right_inj] using fun h => he h.symm)]
        simp [he]

-- What the children of a container have below it.
def kidsAt (i : ℕ) (kids : List (Part × JsonValue)) : Path → Option Row
  | []     => none
  | p :: q => (indexed i kids p).bind fun (j, child) => rowAt (p.key j) j child q

theorem puts_kids (hn : (kids.map Prod.fst).Nodup) (hv : ∀ x ∈ kids, ∀ rows path key position,
    Puts rows (visit rows path key position x.2) path (rowAt key position x.2)) :
    Puts rows (visitKids rows path i kids) path (kidsAt i kids) := by
  induction kids generalizing rows i
  case nil =>
    constructor
    case within => intro q; cases q <;> simp [visitKids, indexed, kidsAt]
    case beyond => intro q _; rfl
  case cons x kids hi =>
    obtain ⟨p', v⟩ := x
    obtain ⟨hx, hn⟩ := List.nodup_cons.mp hn
    rw [List.forall_mem_cons] at hv
    obtain ⟨hv, hkids⟩ := hv
    rw [visitKids]
    refine ((hv rows (path ++ [p']) (p'.key i) i).cons (hi hn hkids) rfl fun q => ?_).congr fun q => ?_
    case refine_1 =>
      rw [kidsAt, indexed_eq_none.mpr hx]
      rfl
    case refine_2 =>
      cases q
      case nil => rfl
      case cons p q =>
        dsimp only
        rw [kidsAt, kidsAt, indexed]
        by_cases he : p = p'
        case pos =>
          subst he
          simp
        case neg => simp [he]

theorem puts_visit (h : v.distinct) : Puts rows (visit rows path key position v) path (rowAt key position v) := by
  induction v using children_induction generalizing rows path key position
  case h v hi =>
    have hk : Puts (rows.insert path ⟨key, position, kind v, leaf v⟩) _ path (kidsAt 0 (children v)) :=
      puts_kids (nodup_children h) fun x hx _ _ _ _ => hi x hx (distinct_of_mem h hx)
    rw [visit_eq]
    constructor
    case beyond =>
      intro q hq
      have hne : q ≠ path := by
        rintro rfl
        exact hq List.prefix_rfl
      rw [hk.beyond q hq, AList.lookup_insert_ne hne]
    case within =>
      intro q
      rw [hk.within q]
      cases q
      case nil =>
        rw [List.append_nil, AList.lookup_insert]
        rfl
      case cons p q =>
        rw [AList.lookup_insert_ne (by simp)]
        rfl

end Ledger
