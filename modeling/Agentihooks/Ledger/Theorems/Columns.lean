import Mathlib.Data.List.Perm.Subperm
import Mathlib.Data.Rat.Encodable
import Agentihooks.Ledger.Columns
import Agentihooks.Ledger.Theorems.Tables

-- The rows of a document in their columns: the paths are all different, and what is assembled or loaded from them is
-- the document.

namespace Ledger

open JsonText (Floats)

variable {floats : Floats} {v w y c : JsonValue} {p : Part} {path q : Path} {key : Key} {position i k : ℕ}
variable {table : Table} {rows : Rows} {row : Row} {items : List JsonValue} {kids : List (Part × JsonValue)}

section Paths

theorem Identity.values_injective : Function.Injective Identity.values := by
  intro a b h
  cases a <;> cases b <;> simp_all [Identity.values]

theorem Part.value_injective : Function.Injective Part.value := by
  intro a b h
  cases a <;> cases b <;> simp only [Part.value, JsonValue.scalar.injEq, JsonValue.array.injEq, reduceCtorEq] at h
  case name.name => simpa using h
  case element.element identity n identity' n' =>
    obtain ⟨hv, hn⟩ := List.append_inj' h rfl
    rw [Identity.values_injective hv]
    simp at hn
    rw [hn]

-- Two paths with one text are one path.
theorem encodePath_injective : Function.Injective (encodePath floats) := by
  intro a b h
  have hp := JsonText.encode_injective h
  rw [JsonValue.array.injEq] at hp
  exact Part.value_injective.list_map hp

theorem Identity.token_injective : Function.Injective (Identity.token floats) := by
  intro a b h
  have htext {v : JsonValue} : Identity.token floats (.id v) = .text (JsonText.encode floats (.array [.scalar (.str "id"), v])) ∨
      ∃ s, v = .scalar (.str s) ∧ Identity.token floats (.id v) = .name s := by
    unfold Identity.token
    split
    case h_1 he => cases he
    case h_2 s he =>
      cases he
      exact .inr ⟨s, rfl, rfl⟩
    case h_3 he =>
      cases he
      exact .inl rfl
  cases a <;> cases b
  case index.index => simpa [Identity.token] using h
  case index.id v =>
    obtain ht | ⟨s, _, ht⟩ := htext (v := v) <;> rw [ht] at h <;> cases h
  case id.index v _ =>
    obtain ht | ⟨s, _, ht⟩ := htext (v := v) <;> rw [ht] at h <;> cases h
  case id.id v w =>
    obtain hv | ⟨s, rfl, hv⟩ := htext (v := v) <;> obtain hw | ⟨t, rfl, hw⟩ := htext (v := w) <;> rw [hv, hw] at h
    · have he := JsonText.encode_injective (Token.text.inj h)
      simp_all
    · cases h
    · cases h
    · cases h
      rfl

theorem getElem?_tokenParts {seen : List Token} :
    (tokenParts floats seen i items)[k]? = items[k]?.map fun item =>
      .element (identity (i + k) item) (seen.count ((identity (i + k) item).token floats) +
        ((items.mapIdx fun j => identity (i + j)).take k).count (identity (i + k) item)) := by
  induction items generalizing seen i k
  case nil => simp [tokenParts]
  case cons item items hi =>
    rw [tokenParts]
    cases k
    case zero   => simp
    case succ k =>
      have hk : i + 1 + k = i + (k + 1) := by omega
      have hm : (items.mapIdx fun j => identity (i + 1 + j)) = items.mapIdx fun j => identity (i + (j + 1)) := by
        congr
        funext j
        rw [Nat.add_assoc, Nat.add_comm 1 j]
      rw [List.getElem?_cons_succ, List.getElem?_cons_succ, hi, hk]
      congr
      funext item'
      rw [List.mapIdx_cons, List.take_succ_cons, List.count_cons, List.count_cons, hm]
      simp only [Nat.add_zero, beq_iff_eq, Identity.token_injective.eq_iff]
      congr 1
      omega

-- The tokens count what the identities do.
theorem tokenParts_eq : tokenParts floats [] 0 items = parts items := by
  ext1 k
  rw [getElem?_tokenParts, getElem?_parts]
  simp

end Paths

section Visits

def Key.value : Key → JsonValue
  | .root    => .scalar .null
  | .name s  => .scalar (.str s)
  | .index i => .scalar (.int i)

-- A row as it stands in its columns.
def printed (floats : Floats) (path : Path) (row : Row) : List Char × StoredRow :=
  (encodePath floats path,
    { table    := tableAt path
      parent   := if path = [] then none else some (encodePath floats path.dropLast)
      key      := JsonText.encode floats row.key.value
      position := row.position
      kind     := row.kind
      value    := JsonText.encode floats (.scalar row.value) })

theorem printed_concat : printed floats (path ++ [p]) row =
    (encodePath floats (path ++ [p]),
      { table    := tableAt (path ++ [p])
        parent   := some (encodePath floats path)
        key      := JsonText.encode floats row.key.value
        position := row.position
        kind     := row.kind
        value    := JsonText.encode floats (.scalar row.value) }) := by
  simp [printed]

theorem tableAt_concat : tableAt (path ++ [p]) = bucket (path = []) (tableAt path) p := by
  cases path <;> simp [tableAt]

-- The rows of the children of a container, whichever they are.
def visitChildren (floats : Floats) (path : Path) (i : ℕ) : List (Part × JsonValue) → StoredRows
  | []             => []
  | (p, v) :: kids =>
    Columns.visit floats (path ++ [p]) (some (encodePath floats path)) (p.key i).value i (tableAt (path ++ [p])) v ++
      visitChildren floats path (i + 1) kids

theorem visitItems_children {ps : List Part} (h : ∀ p ∈ ps, ∀ i, p.key i = .index i) :
    Columns.visitItems floats path ps i (tableAt path) items = visitChildren floats path i (ps.zip items) := by
  induction items generalizing ps i
  case nil => simp [Columns.visitItems, visitChildren]
  case cons item items hi =>
    cases ps
    case nil => simp [Columns.visitItems, visitChildren]
    case cons p ps =>
      rw [List.forall_mem_cons] at h
      have ht : tableAt (path ++ [p]) = tableAt path := by
        rw [tableAt_concat]
        cases p
        case name    => cases h.left 0
        case element => rfl
      rw [Columns.visitItems, List.zip_cons_cons, visitChildren, h.left, hi h.right, ht]
      rfl

theorem visitFields_children {fields : List (String × JsonValue)} :
    Columns.visitFields floats path i (tableAt path) fields =
      visitChildren floats path i (fields.map fun (name, v) => (.name name, v)) := by
  induction fields generalizing i
  case nil => simp [Columns.visitFields, visitChildren]
  case cons x fields hi =>
    rw [Columns.visitFields, List.map_cons, visitChildren, hi, tableAt_concat]
    rfl

theorem visit_children {parent : Option (List Char)} :
    Columns.visit floats path parent key.value position (tableAt path) v =
      (encodePath floats path,
        ⟨tableAt path, parent, JsonText.encode floats key.value, position, kind v,
          JsonText.encode floats (.scalar (leaf v))⟩) :: visitChildren floats path 0 (children v) := by
  cases v
  case scalar s => rfl
  case array    =>
    rw [Columns.visit, tokenParts_eq, visitItems_children key_of_mem_parts]
    rfl
  case object   =>
    rw [Columns.visit, visitFields_children]
    rfl

theorem mem_visitChildren {x : List Char × StoredRow} : x ∈ visitChildren floats path i kids ↔
    ∃ k p c, kids[k]? = some (p, c) ∧
      x ∈ Columns.visit floats (path ++ [p]) (some (encodePath floats path)) (p.key (i + k)).value (i + k)
        (tableAt (path ++ [p])) c := by
  induction kids generalizing i
  case nil => simp [visitChildren]
  case cons kid kids hi =>
    obtain ⟨p, c⟩ := kid
    rw [visitChildren, List.mem_append, hi]
    constructor
    case mp =>
      rintro (h | ⟨k, p', c', hk, h⟩)
      case inl => exact ⟨0, p, c, rfl, h⟩
      case inr =>
        refine ⟨k + 1, p', c', hk, ?_⟩
        rwa [show i + (k + 1) = i + 1 + k by omega]
    case mpr =>
      rintro ⟨k, p', c', hk, h⟩
      cases k
      case zero =>
        cases hk
        exact .inl h
      case succ k =>
        refine .inr ⟨k, p', c', hk, ?_⟩
        rwa [show i + 1 + k = i + (k + 1) by omega]

-- The rows that are set are the rows of the value, printed.
theorem mem_visit (h : v.distinct) {parent : Option (List Char)}
    (hp : parent = if path = [] then none else some (encodePath floats path.dropLast)) {x : List Char × StoredRow} :
    x ∈ Columns.visit floats path parent key.value position (tableAt path) v ↔
      ∃ q row, rowAt key position v q = some row ∧ x = printed floats (path ++ q) row := by
  induction v using children_induction generalizing path key position parent x
  case h v hi =>
    rw [visit_children, List.mem_cons, mem_visitChildren]
    constructor
    case mp =>
      rintro (rfl | ⟨k, p, c, hk, hx⟩)
      case inl =>
        refine ⟨[], _, rfl, ?_⟩
        rw [List.append_nil, printed, hp]
      case inr =>
        have hm := List.mem_of_getElem? hk
        rw [Nat.zero_add, hi _ hm (distinct_of_mem h hm) (by simp)] at hx
        obtain ⟨q, row, hr, rfl⟩ := hx
        refine ⟨p :: q, row, ?_, by simp⟩
        rw [rowAt, (indexed_eq_some (i := 0) (nodup_children h)).mpr ⟨k, (Nat.zero_add k).symm, hk⟩]
        exact hr
    case mpr =>
      rintro ⟨q, row, hr, rfl⟩
      cases q
      case nil =>
        cases hr
        rw [List.append_nil, printed, ← hp]
        exact .inl rfl
      case cons p q =>
        rw [rowAt] at hr
        obtain ⟨⟨j, c⟩, hj, hr⟩ := Option.bind_eq_some_iff.mp hr
        obtain ⟨k, rfl, hk⟩ := (indexed_eq_some (nodup_children h)).mp hj
        have hm := List.mem_of_getElem? hk
        refine .inr ⟨k, p, c, hk, ?_⟩
        rw [hi _ hm (distinct_of_mem h hm) (by simp)]
        exact ⟨q, row, hr, by simp⟩

-- Of a child, whose parent is never missing.
theorem mem_visit_child (h : c.distinct) {x : List Char × StoredRow} :
    x ∈ Columns.visit floats (path ++ [p]) (some (encodePath floats path)) key.value position (tableAt (path ++ [p])) c ↔
      ∃ q row, rowAt key position c q = some row ∧ x = printed floats (path ++ p :: q) row := by
  rw [mem_visit h (by simp)]
  simp

theorem mem_visits (h : v.distinct) {x : List Char × StoredRow} :
    x ∈ Columns.visits floats v ↔ ∃ q row, rowAt .root 0 v q = some row ∧ x = printed floats q row := by
  have hv : x ∈ Columns.visit floats [] none Key.root.value 0 (tableAt []) v ↔ _ := mem_visit h rfl
  exact hv

theorem nodup_visitChildren (hn : (kids.map Prod.fst).Nodup) (hd : ∀ x ∈ kids, x.2.distinct)
    (hv : ∀ x ∈ kids, ∀ position, ((Columns.visit floats (path ++ [x.1]) (some (encodePath floats path))
      (x.1.key position).value position (tableAt (path ++ [x.1])) x.2).map Prod.fst).Nodup) :
    ((visitChildren floats path i kids).map Prod.fst).Nodup := by
  induction kids generalizing i
  case nil => exact List.nodup_nil
  case cons kid kids hi =>
    obtain ⟨p, c⟩ := kid
    rw [List.map_cons, List.nodup_cons] at hn
    rw [List.forall_mem_cons] at hd hv
    rw [visitChildren, List.map_append, List.nodup_append]
    refine ⟨hv.left i, hi hn.right hd.right hv.right, ?_⟩
    rintro _ hx _ hy rfl
    obtain ⟨x, hxm, rfl⟩ := List.mem_map.mp hx
    obtain ⟨y, hym, he⟩ := List.mem_map.mp hy
    obtain ⟨k, p', c', hk, hyc⟩ := mem_visitChildren.mp hym
    have hm := List.mem_of_getElem? hk
    obtain ⟨q, row, _, rfl⟩ := (mem_visit_child hd.left).mp hxm
    obtain ⟨q', row', _, rfl⟩ := (mem_visit_child (hd.right _ hm)).mp hyc
    have hp := encodePath_injective he
    rw [List.append_cancel_left_eq, List.cons.injEq] at hp
    have hkey : p' ∈ kids.map Prod.fst := List.mem_map_of_mem (f := Prod.fst) hm
    exact hn.left (hp.left ▸ hkey)

-- No path is set twice.
theorem nodup_visit (h : v.distinct) {parent : Option (List Char)} :
    ((Columns.visit floats path parent key.value position (tableAt path) v).map Prod.fst).Nodup := by
  induction v using children_induction generalizing path key position parent
  case h v hi =>
    have hd : ∀ x ∈ children v, x.2.distinct := fun _ hx => distinct_of_mem h hx
    rw [visit_children, List.map_cons, List.nodup_cons]
    constructor
    case left =>
      intro hx
      obtain ⟨x, hxm, he⟩ := List.mem_map.mp hx
      obtain ⟨k, p, c, hk, hxc⟩ := mem_visitChildren.mp hxm
      obtain ⟨q, row, _, rfl⟩ := (mem_visit_child (hd _ (List.mem_of_getElem? hk))).mp hxc
      have hp := congrArg List.length (encodePath_injective he)
      simp at hp
    case right => exact nodup_visitChildren (nodup_children h) hd fun x hx _ => hi x hx (hd x hx)

theorem nodup_visits (h : v.distinct) : ((Columns.visits floats v).map Prod.fst).Nodup := by
  have hv : ((Columns.visit floats [] none Key.root.value 0 (tableAt []) v).map Prod.fst).Nodup := nodup_visit h
  exact hv

theorem foldl_assign {α β : Type} [DecidableEq α] {xs ys : List (α × β)} (h : ((xs ++ ys).map Prod.fst).Nodup) :
    ys.foldl assign xs = xs ++ ys := by
  induction ys generalizing xs
  case nil => simp
  case cons y ys hi =>
    have hy : y.1 ∉ xs.map Prod.fst := by
      intro hm
      rw [List.map_append, List.nodup_append] at h
      exact h.right.right _ hm _ (by simp) rfl
    have ha : assign xs y = xs ++ [y] := if_neg hy
    rw [List.foldl_cons, ha, hi (by simpa using h), List.append_assoc, List.singleton_append]

-- Every row that is set stays.
theorem flatten_eq (h : v.distinct) : Columns.flatten floats v = Columns.visits floats v :=
  @foldl_assign _ _ _ [] _ (nodup_visits h)

end Visits

section Stored

theorem holds_flatten (h : v.distinct) : Holds (flatten v) v := by
  intro q
  have hw := (@puts_visit v [] .root 0 ∅ h).within q
  rwa [List.nil_append, AList.lookup_empty, Option.or_none] at hw

theorem perm_printed (h : v.distinct) :
    (Columns.visits floats v).Perm ((flatten v).entries.map fun e => printed floats e.1 e.2) := by
  have hkeys {l : List (Sigma fun _ : Path => Row)} :
      (l.map fun e => printed floats e.1 e.2).map Prod.fst = (l.map Sigma.fst).map (encodePath floats) := by
    rw [List.map_map, List.map_map]
    rfl
  refine (List.perm_ext_iff_of_nodup ?_ ?_).mpr fun x => ?_
  case refine_1 => exact (nodup_visits h).of_map _
  case refine_2 =>
    refine List.Nodup.of_map Prod.fst ?_
    rw [hkeys]
    exact (flatten v).nodupKeys.map encodePath_injective
  case refine_3 =>
    rw [mem_visits h, List.mem_map]
    constructor
    case mp =>
      rintro ⟨q, row, hr, rfl⟩
      rw [← holds_flatten h q] at hr
      exact ⟨⟨q, row⟩, AList.mem_lookup_iff.mp hr, rfl⟩
    case mpr =>
      rintro ⟨⟨q, row⟩, he, rfl⟩
      exact ⟨q, row, holds_flatten h q ▸ AList.mem_lookup_iff.mpr he, rfl⟩

-- In whatever order the rows come, they are the rows of the value, printed.
theorem rows_of_perm (h : v.distinct) {stored : StoredRows} (hp : stored.Perm (Columns.visits floats v)) :
    ∃ rows : Rows, Holds rows v ∧ stored = rows.entries.map fun e => printed floats e.1 e.2 := by
  have hf : List.Forall₂ (fun (x : List Char × StoredRow) (e : Sigma fun _ : Path => Row) => x = printed floats e.1 e.2)
      ((flatten v).entries.map fun e => printed floats e.1 e.2) (flatten v).entries := by
    rw [List.forall₂_map_left_iff]
    exact List.forall₂_same.mpr fun _ _ => rfl
  obtain ⟨l, hl, hlp⟩ := List.perm_comp_forall₂ (hp.trans (perm_printed h)) hf
  refine ⟨⟨l, (List.perm_nodupKeys hlp).mpr (flatten v).nodupKeys⟩, fun q => ?_, ?_⟩
  case refine_1 => rw [← holds_flatten h q, AList.perm_lookup hlp]
  case refine_2 =>
    dsimp only
    clear hlp hp hf
    induction hl
    case nil             => rfl
    case cons hx _ hi => rw [List.map_cons, hx, hi]

variable {stored : StoredRows}

theorem lookup_printed {entries : List (Sigma fun _ : Path => Row)} :
    (entries.map fun e => printed floats e.1 e.2).lookup (encodePath floats q) =
      (entries.dlookup q).map fun row => (printed floats q row).2 := by
  induction entries
  case nil => rfl
  case cons e entries hi =>
    obtain ⟨path, row⟩ := e
    rw [List.map_cons, List.lookup_cons]
    by_cases he : q = path
    case pos =>
      subst he
      simp [printed]
    case neg =>
      have hb : (encodePath floats q == (printed floats path row).1) = false := by
        simpa [printed, encodePath_injective.eq_iff] using he
      rw [List.dlookup_cons_ne _ _ he]
      simp only [hb]
      exact hi

theorem placed_printed : Columns.placed (rows.entries.map fun e => printed floats e.1 e.2) (encodePath floats q) =
    (childRows rows q).map fun x => printed floats x.1 x.2 := by
  have hparent (e : Sigma fun _ : Path => Row) : (printed floats e.1 e.2).2.parent = some (encodePath floats q) ↔
      e.1 ≠ [] ∧ e.1.dropLast = q := by
    by_cases he : e.1 = []
    case pos => simp [printed, he]
    case neg => simp [printed, he, encodePath_injective.eq_iff]
  have hsort (l : List (Path × Row)) : (l.insertionSort fun x y => x.2.position ≤ y.2.position).map
      (fun x => printed floats x.1 x.2) =
      (l.map fun x => printed floats x.1 x.2).insertionSort fun x y => x.2.position ≤ y.2.position :=
    List.map_insertionSort _ _ _ _ fun _ _ _ _ => Iff.rfl
  rw [Columns.placed, childRows, hsort, List.map_map, List.filter_map]
  simp only [Function.comp_def, hparent]

-- An item is a child with its key in its column.
def Spelled (floats : Floats) (x : List Char × JsonValue) (kid : Part × JsonValue) : Prop :=
  (∃ i, x.1 = JsonText.encode floats (kid.1.key i).value) ∧ x.2 = kid.2

theorem readName_encode (name : String) :
    Columns.readName floats (JsonText.encode floats (.scalar (.str name))) = .ok name := by
  rw [Columns.readName, JsonText.encode, JsonText.readScalar_encodeScalar]

theorem readValue_encode (s : JsonScalar) :
    Columns.readValue floats (JsonText.encode floats (.scalar s)) = .ok (.scalar s) := by
  rw [Columns.readValue, JsonText.encode, JsonText.readScalar_encodeScalar]

-- A container is filled with its children again.
theorem filled_eq {items : List (List Char × JsonValue)} (hd : y.distinct) (hk : kind y ≠ .value)
    (h : List.Forall₂ (Spelled floats) items (children y)) : Columns.filled floats (kind y) items = .ok y := by
  cases y
  case scalar => exact absurd rfl hk
  case array values =>
    have hsnd : items.map Prod.snd = (children (.array values)).map Prod.snd := by
      generalize children (.array values) = kids at h
      induction h
      case nil             => rfl
      case cons hx _ hi => rw [List.map_cons, List.map_cons, hi, hx.right]
    have hz : (children (.array values)).map Prod.snd = values := by
      rw [children, List.map_snd_zip (by simp)]
    have harray : kind (.array values) = .array := rfl
    rw [Columns.filled, if_pos harray, hsnd, hz]
  case object fields =>
    have hm : items.mapM (fun x => (Columns.readName floats x.1).map fun name => (name, x.2)) = .ok fields := by
      rw [children] at h
      clear hd hk
      induction fields generalizing items
      case nil =>
        cases h
        rfl
      case cons field fields hi =>
        cases h
        case cons x items hx h =>
          obtain ⟨⟨i, hkey⟩, hvalue⟩ := hx
          have hname : Columns.readName floats x.1 = .ok field.1 := hkey ▸ readName_encode field.1
          have hsnd : x.2 = field.2 := hvalue
          rw [List.mapM_cons, hname, hi h, hsnd]
          rfl
    have ha : fields.foldl assign [] = fields := @foldl_assign _ _ _ [] _ (JsonValue.distinct_object.mp hd).left
    rw [Columns.filled, if_neg (by simp [kind]), hm, ← ha]
    simp [ha, bind, Except.bind, pure, Except.pure]

theorem children_read (h : Holds rows w) (hd : w.distinct) (hy : valueAt w q = some y)
    {f : List Char × StoredRow → Except Columns.Fault JsonValue}
    (hf : ∀ p c row, (p, c) ∈ children y → rows.lookup (q ++ [p]) = some row → row.kind = kind c → row.value = leaf c →
      f (printed floats (q ++ [p]) row) = .ok c) :
    ∃ items, (Columns.placed (rows.entries.map fun e => printed floats e.1 e.2) (encodePath floats q)).mapM
        (fun x => (f x).map fun item => (x.2.key, item)) = .ok items ∧ List.Forall₂ (Spelled floats) items (children y) := by
  have hrows : ∀ kid ∈ children y, (rows.lookup (q ++ [kid.1])).isSome := by
    intro kid hkid
    obtain ⟨i, hi⟩ := List.mem_iff_getElem?.mp hkid
    exact Option.isSome_of_eq_some (h.row_of_child hd hy (p := kid.1) (c := kid.2) hi)
  have hc : List.Forall₂ (fun x (kid : Part × JsonValue) => ∃ row, x = printed floats (q ++ [kid.1]) row ∧
      rows.lookup (q ++ [kid.1]) = some row)
      ((rowsOf rows q ((children y).map Prod.fst)).map fun x => printed floats x.1 x.2) (children y) := by
    rw [List.forall₂_map_left_iff]
    refine (isChild_rowsOf hrows).imp ?_
    rintro ⟨child, row⟩ ⟨p, c⟩ ⟨rfl, hr⟩
    exact ⟨row, rfl, hr⟩
  rw [placed_printed, h.childRows hd hy]
  refine mapM_ok hc ?_
  rintro x ⟨p, c⟩ ⟨row, rfl, hr⟩ hm
  obtain ⟨i, hi⟩ := List.mem_iff_getElem?.mp hm
  obtain rfl := Option.some.inj (hr.symm.trans (h.row_of_child hd hy hi))
  exact ⟨_, by rw [hf p c _ hm hr rfl rfl]; rfl, ⟨i, rfl⟩, rfl⟩

theorem Holds.row_of_value (h : Holds rows w) (hy : valueAt w q = some y) :
    ∃ row, rows.lookup q = some row ∧ row.kind = kind y ∧ row.value = leaf y := by
  have hm := @map_rowAt w q .root 0
  rw [hy] at hm
  obtain ⟨row, hr, he⟩ := Option.map_eq_some_iff.mp hm
  exact ⟨row, (h q).trans hr, Prod.mk.inj he⟩

theorem valueAt_child (hd : w.distinct) (hy : valueAt w q = some y) (hm : (p, c) ∈ children y) :
    valueAt w (q ++ [p]) = some c := by
  rw [valueAt_concat, hy, Option.bind_some]
  exact (JsonValue.lookup_eq_some_iff_mem (nodup_children (distinct_valueAt hd hy))).mpr hm

theorem build_eq (fuel : ℕ) (h : Holds rows w) (hd : w.distinct) (hy : valueAt w q = some y)
    (hf : depth rows ≤ fuel + q.length) :
    Columns.build floats (rows.entries.map fun e => printed floats e.1 e.2) fuel (encodePath floats q) = .ok y := by
  obtain ⟨row, hr, hk, hv⟩ := h.row_of_value hy
  induction fuel generalizing q y row
  case zero =>
    have := length_lt_depth hr
    omega
  case succ fuel hi =>
    have hl : (rows.entries.map fun e => printed floats e.1 e.2).lookup (encodePath floats q) =
        some (printed floats q row).2 := by
      rw [lookup_printed, show rows.entries.dlookup q = some row from hr, Option.map_some]
    rw [Columns.build, hl]
    dsimp only [printed]
    split_ifs with hkind
    case pos =>
      rw [hv, readValue_encode]
      cases y <;> simp [kind, hkind] at hk
      rfl
    case neg =>
      obtain ⟨items, he, hs⟩ := children_read (f := fun x => Columns.build floats _ fuel x.1) h hd hy
        fun p c row hm hr hk hv => hi (valueAt_child hd hy hm) (by simp; omega) row hr hk hv
      have hb : (do
          let items ← (Columns.placed (rows.entries.map fun e => printed floats e.1 e.2) (encodePath floats q)).mapM
            fun x => (Columns.build floats (rows.entries.map fun e => printed floats e.1 e.2) fuel x.1).map
              fun item => (x.2.key, item)
          Columns.filled floats row.kind items) = Columns.filled floats row.kind items := by
        rw [he]
        rfl
      exact hb.trans (hk ▸ filled_eq (distinct_valueAt hd hy) (hk ▸ hkind) hs)

variable (floats) in
theorem containerAt_printed (hr : rows.lookup q = some row) (hk : row.kind ≠ .value) :
    Columns.containerAt (rows.entries.map fun e => printed floats e.1 e.2) (encodePath floats q) = some row.kind := by
  have hm : printed floats q row ∈ (rows.entries.map fun e => printed floats e.1 e.2).reverse := by
    rw [List.mem_reverse, List.mem_map]
    exact ⟨⟨q, row⟩, AList.mem_lookup_iff.mp hr, rfl⟩
  have hs : ((rows.entries.map fun e => printed floats e.1 e.2).reverse.find? fun x =>
      x.1 = encodePath floats q ∧ x.2.kind ≠ .value).isSome :=
    List.find?_isSome.mpr ⟨_, hm, by simpa [printed] using hk⟩
  obtain ⟨x, hx⟩ := Option.isSome_iff_exists.mp hs
  have hfound := List.find?_some hx
  rw [decide_eq_true_eq] at hfound
  obtain ⟨⟨q', row'⟩, he, rfl⟩ := List.mem_map.mp (List.mem_reverse.mp (List.mem_of_find?_eq_some hx))
  obtain rfl := encodePath_injective hfound.left
  obtain rfl := Option.some.inj (hr.symm.trans (AList.mem_lookup_iff.mpr he))
  rw [Columns.containerAt, hx]
  rfl

theorem grown_eq (fuel : ℕ) (h : Holds rows w) (hd : w.distinct) (hy : valueAt w q = some y) (hv : kind y ≠ .value)
    (hf : depth rows ≤ fuel + q.length) :
    Columns.grown floats (rows.entries.map fun e => printed floats e.1 e.2) fuel (encodePath floats q) = .ok y := by
  obtain ⟨row, hr, hk, -⟩ := h.row_of_value hy
  induction fuel generalizing q y row
  case zero =>
    have := length_lt_depth hr
    omega
  case succ fuel hi =>
    rw [Columns.grown, containerAt_printed floats hr (hk ▸ hv)]
    dsimp only
    have hread : ∀ p c row, (p, c) ∈ children y → rows.lookup (q ++ [p]) = some row → row.kind = kind c →
        row.value = leaf c → (if (printed floats (q ++ [p]) row).2.kind = .value then
          Columns.readValue floats (printed floats (q ++ [p]) row).2.value
        else Columns.grown floats (rows.entries.map fun e => printed floats e.1 e.2) fuel
          (printed floats (q ++ [p]) row).1) = .ok c := by
      intro p c row hm hr hk hv
      by_cases hkind : row.kind = .value
      case pos =>
        have hp : (printed floats (q ++ [p]) row).2.kind = .value := hkind
        have hvalue : Columns.readValue floats (printed floats (q ++ [p]) row).2.value = .ok (.scalar row.value) :=
          readValue_encode row.value
        rw [if_pos hp, hvalue, hv]
        cases c <;> simp [kind, hkind] at hk
        rfl
      case neg =>
        have hp : ¬ (printed floats (q ++ [p]) row).2.kind = .value := hkind
        rw [if_neg hp]
        exact hi (valueAt_child hd hy hm) (hk ▸ hkind) (by simp; omega) row hr hk
    obtain ⟨items, he, hs⟩ := children_read (f := fun x => if x.2.kind = .value then Columns.readValue floats x.2.value
      else Columns.grown floats _ fuel x.1) h hd hy hread
    have hb : (do
        let items ← (Columns.placed (rows.entries.map fun e => printed floats e.1 e.2) (encodePath floats q)).mapM
          fun x => (if x.2.kind = .value then Columns.readValue floats x.2.value
            else Columns.grown floats (rows.entries.map fun e => printed floats e.1 e.2) fuel x.1).map
            fun item => (x.2.key, item)
        Columns.filled floats row.kind items) = Columns.filled floats row.kind items := by
      rw [he]
      rfl
    exact hb.trans (hk ▸ filled_eq (distinct_valueAt hd hy) hv hs)

theorem rowAt_take (h : (rowAt key position v q).isSome) (n : ℕ) : (rowAt key position v (q.take n)).isSome := by
  induction q generalizing v key position n
  case nil => rwa [List.take_nil]
  case cons p q hi =>
    cases n
    case zero   => rfl
    case succ n =>
      rw [List.take_succ_cons, rowAt]
      rw [rowAt] at h
      cases hx : indexed 0 (children v) p
      case none   => simp [hx] at h
      case some x =>
        rw [hx] at h
        exact hi h n

-- The paths above a row are those of other rows.
theorem length_lt_entries (h : Holds rows w) (hq : q ∈ rows.keys) : q.length < rows.entries.length := by
  have hs : (rowAt .root 0 w q).isSome := h q ▸ AList.lookup_isSome.mpr (AList.mem_keys.mpr hq)
  have hn : ((List.range (q.length + 1)).map q.take).Nodup := by
    refine List.Nodup.map_on (fun i hi j hj he => ?_) List.nodup_range
    have hl := congrArg List.length he
    rw [List.mem_range] at hi hj
    rw [List.length_take, List.length_take] at hl
    omega
  have hsub : (List.range (q.length + 1)).map q.take ⊆ rows.keys := by
    intro path hp
    obtain ⟨n, _, rfl⟩ := List.mem_map.mp hp
    exact AList.mem_keys.mp (AList.lookup_isSome.mp (h _ ▸ rowAt_take hs n))
  have hl := (List.Nodup.subperm hn hsub).length_le
  rw [List.length_map, List.length_range] at hl
  have hkeys : rows.keys.length = rows.entries.length := List.length_map _
  omega

theorem depth_le (h : Holds rows w) : depth rows ≤ rows.entries.length + 1 := by
  have hl {l : List Path} (hq : ∀ q ∈ l, q.length < rows.entries.length) :
      (l.map List.length).foldr max 0 ≤ rows.entries.length := by
    induction l
    case nil         => exact Nat.zero_le _
    case cons q l hi =>
      rw [List.forall_mem_cons] at hq
      rw [List.map_cons, List.foldr_cons]
      exact max_le hq.left.le (hi hq.right)
  exact Nat.succ_le_succ (hl fun q hq => length_lt_entries h hq)

theorem legible (h : Holds rows w) (hd : w.distinct) :
    Columns.Legible floats (rows.entries.map fun e => printed floats e.1 e.2) := by
  intro x hx
  obtain ⟨⟨path, row⟩, he, rfl⟩ := List.mem_map.mp hx
  have hr : rows.lookup path = some row := AList.mem_lookup_iff.mpr he
  constructor
  case left =>
    intro _
    have hv : Columns.readValue floats (printed floats path row).2.value = .ok (.scalar row.value) :=
      readValue_encode row.value
    rw [hv]
    rfl
  case right =>
    intro ho
    obtain rfl | ⟨q, p, rfl⟩ := List.eq_nil_or_concat' path
    case inl => cases ho
    case inr =>
      have hrow := (h (q ++ [p])).symm.trans hr
      rw [rowAt_concat] at hrow
      obtain ⟨y, hy, hrow⟩ := Option.bind_eq_some_iff.mp hrow
      obtain ⟨⟨j, c⟩, hj, rfl⟩ := Option.map_eq_some_iff.mp hrow
      obtain ⟨k, _, hk⟩ := (indexed_eq_some (nodup_children (distinct_valueAt hd hy))).mp hj
      obtain ⟨parent, hparent, hkind, _⟩ := h.row_of_value hy
      have hne : parent.kind ≠ .value := by
        rw [hkind]
        cases y
        case scalar => simp [children] at hk
        all_goals simp [kind]
      rw [printed_concat] at ho
      have hc := (containerAt_printed floats hparent hne).symm.trans ho
      rw [hkind] at hc
      cases y <;> simp only [kind, Option.some.injEq, reduceCtorEq] at hc
      case object fields =>
        obtain ⟨x, hx, he⟩ := List.mem_map.mp (List.mem_of_getElem? hk)
        cases he
        have hname : Columns.readName floats (printed floats (q ++ [.name x.1])
            ⟨(Part.name x.1).key j, j, kind x.2, leaf x.2⟩).2.key = .ok x.1 := readName_encode x.1
        rw [hname]
        rfl

end Stored

theorem assemble_of_perm {stored : StoredRows} (hd : v.distinct) (hp : stored.Perm (Columns.visits floats v)) :
    Columns.assemble floats stored = .ok v := by
  obtain ⟨rows, h, rfl⟩ := rows_of_perm hd hp
  rw [Columns.assemble, List.length_map]
  exact build_eq (q := []) _ h hd rfl (depth_le h)

theorem perm_tables {l : StoredRows} : ((l.filter fun x => x.2.table = .fields) ++
    (l.filter fun x => x.2.table = .resources) ++ (l.filter fun x => x.2.table = .threads)).Perm l := by
  induction l
  case nil => exact .nil
  case cons x l hi =>
    cases hx : x.2.table
    case fields => simpa [List.filter_cons, hx] using hi
    case resources =>
      simp only [List.filter_cons, hx, reduceCtorEq, decide_false, decide_true, if_true, Bool.false_eq_true, if_false,
        List.append_assoc, List.cons_append] at hi ⊢
      exact List.perm_middle.trans (hi.cons x)
    case threads =>
      simp only [List.filter_cons, hx, reduceCtorEq, decide_false, decide_true, if_true, Bool.false_eq_true, if_false]
      exact List.perm_middle.trans (hi.cons x)

-- A document is read back from its rows as it was, in whatever order the tables give them, and every value in it has
-- a row of its own.
theorem flatten_lossless (floats : Floats) (v : JsonValue) (hd : v.distinct) (hv : kind v = .object) :
    ((Columns.visits floats v).map Prod.fst).Nodup ∧ Columns.flatten floats v = Columns.visits floats v ∧
      Columns.assemble floats (Columns.flatten floats v) = .ok v ∧
      ∀ tables : Columns.Selected,
        (∀ table, (tables table).Perm ((Columns.flatten floats v).filter fun x => x.2.table = table)) →
        Columns.load floats tables = .ok v := by
  refine ⟨nodup_visits hd, flatten_eq hd, assemble_of_perm hd (.of_eq (flatten_eq hd)), fun tables ht => ?_⟩
  have hp : (tables .fields ++ tables .resources ++ tables .threads).Perm (Columns.visits floats v) := by
    rw [flatten_eq hd] at ht
    exact (((ht .fields).append (ht .resources)).append (ht .threads)).trans perm_tables
  obtain ⟨rows, h, he⟩ := rows_of_perm hd hp
  rw [Columns.load, he, if_pos (legible h hd), List.length_map]
  exact grown_eq (q := []) _ h hd rfl (by simp [hv]) (depth_le h)

-- Floats printed as one of them is, and the others in numerals of their own.
def oneFloats : Floats where
  repr n m      := if n = false ∧ m = 1 then ['1', '.', '0'] else Nat.toDigits 10 (Encodable.encode (n, m)) ++ ['e']
  read text     :=
    if text = ['1', '.', '0'] then some (false, 1)
    else
      match JsonText.natural text with
      | some (k, ['e']) => Encodable.decode k
      | _               => none
  printed n m   := by
    by_cases hone : n = false ∧ m = 1
    case pos => simp [hone]
    case neg =>
      have htext : Nat.toDigits 10 (Encodable.encode (n, m)) ++ ['e'] ≠ ['1', '.', '0'] := by
        intro he
        have hl := congrArg List.getLast? he
        simp at hl
      rw [if_neg hone, if_neg htext, JsonText.natural_toDigits _ ['e'] fun c hc => by cases hc; decide]
      exact Encodable.encodek (n, m)
  numeral n m   := by
    intro c hc
    split_ifs at hc
    case pos =>
      simp only [List.mem_cons, List.not_mem_nil, or_false] at hc
      obtain rfl | rfl | rfl := hc <;> simp
    case neg =>
      obtain hd | he := List.mem_append.mp hc
      case inl => exact .inl (JsonText.isDigit_of_mem hd)
      case inr =>
        obtain rfl := List.mem_singleton.mp he
        exact .inr (by decide)
  fraction n m  := by
    split_ifs
    case pos => exact ⟨'.', by decide, .inl rfl⟩
    case neg => exact ⟨'e', by simp, .inr rfl⟩
  starts n m    := by
    intro c hc
    split_ifs at hc
    case pos => cases hc; exact .inl (by decide)
    case neg =>
      rw [List.head?_append_of_ne_nil _ Nat.toDigits_ne_nil] at hc
      exact .inl (JsonText.isDigit_of_mem (List.mem_of_head? hc))

def withId (id : JsonScalar) : JsonValue :=
  .object [("id", .scalar id)]

-- Elements with ids of every kind, two of them the same, and elements without.
def mixed : JsonValue :=
  .object [("tasks", .array [withId (.str "t1"), withId (.str "t1"), withId (.int 1), withId (.bool true),
    withId (.float false 1), withId .null, .array [], .object [], .scalar .null]), ("title", .scalar (.str "t"))]

theorem flatten_lossless_mixed :
    ((Columns.visits oneFloats mixed).map Prod.fst).Nodup ∧
      Columns.flatten oneFloats mixed = Columns.visits oneFloats mixed ∧
      Columns.assemble oneFloats (Columns.flatten oneFloats mixed) = .ok mixed ∧
      ∀ tables : Columns.Selected,
        (∀ table, (tables table).Perm ((Columns.flatten oneFloats mixed).filter fun x => x.2.table = table)) →
        Columns.load oneFloats tables = .ok mixed :=
  flatten_lossless oneFloats mixed (by decide +kernel) rfl

end Ledger
