import Mathlib.Data.List.Forall2
import Mathlib.Data.Rat.Defs

-- JSON values as a program with dictionaries has them: the fields of an object in their order, and numbers of
-- three types. Two values are alike up to a relation of their scalars when their arrays have alike items and
-- their objects have alike fields, in whatever order.

inductive JsonScalar
  | null
  | bool (b : Bool)
  | int (n : ℤ)
  | float (negative : Bool) (magnitude : ℚ)
  | str (s : String)
  deriving DecidableEq

inductive JsonType
  | null
  | bool
  | int
  | float
  | str
  | array
  | object
  deriving DecidableEq

namespace JsonScalar

def type : JsonScalar → JsonType
  | null      => .null
  | bool _    => .bool
  | int _     => .int
  | float _ _ => .float
  | str _     => .str

-- The number that a scalar counts as: `true` is 1.
def number : JsonScalar → Option ℚ
  | bool b    => some (if b then 1 else 0)
  | int n     => some n
  | float s m => some (if s then -m else m)
  | _         => none

-- Equality of numbers across their types.
def loose (a b : JsonScalar) : Bool :=
  if a.number.isSome ∧ b.number.isSome then a.number = b.number else a = b

theorem loose_iff {a b : JsonScalar} : a.loose b ↔ a = b ∨ a.number.isSome ∧ a.number = b.number := by
  unfold loose
  split
  case isTrue h =>
    rw [decide_eq_true_iff]
    constructor
    case mp  => exact fun he => .inr ⟨h.left, he⟩
    case mpr =>
      rintro (rfl | he)
      · rfl
      · exact he.right
  case isFalse h =>
    rw [decide_eq_true_iff]
    constructor
    case mp  => exact .inl
    case mpr =>
      rintro (he | ⟨hs, he⟩)
      · exact he
      · exact absurd ⟨hs, he ▸ hs⟩ h

theorem loose_refl (a : JsonScalar) : a.loose a :=
  loose_iff.mpr (.inl rfl)

theorem loose_symm (a b : JsonScalar) (h : a.loose b) : b.loose a := by
  rw [loose_iff] at h ⊢
  rcases h with rfl | ⟨hs, he⟩
  · exact .inl rfl
  · exact .inr ⟨he ▸ hs, he.symm⟩

theorem loose_trans (a b c : JsonScalar) (h : a.loose b) (h' : b.loose c) : a.loose c := by
  rw [loose_iff] at h h' ⊢
  rcases h with rfl | ⟨hs, he⟩
  · exact h'
  · rcases h' with rfl | ⟨_, he'⟩
    · exact .inr ⟨hs, he⟩
    · exact .inr ⟨hs, he.trans he'⟩

-- Equality within one type.
def strict (a b : JsonScalar) : Bool :=
  a.type = b.type ∧ a.loose b

theorem strict_iff {a b : JsonScalar} : a.strict b ↔ a.type = b.type ∧ a.loose b := by
  simp [strict]

theorem strict_refl (a : JsonScalar) : a.strict a :=
  strict_iff.mpr ⟨rfl, loose_refl a⟩

theorem strict_symm (a b : JsonScalar) (h : a.strict b) : b.strict a := by
  rw [strict_iff] at h ⊢
  exact ⟨h.left.symm, loose_symm a b h.right⟩

theorem strict_trans (a b c : JsonScalar) (h : a.strict b) (h' : b.strict c) : a.strict c := by
  rw [strict_iff] at h h' ⊢
  exact ⟨h.left.trans h'.left, loose_trans a b c h.right h'.right⟩

end JsonScalar

inductive JsonValue
  | scalar (s : JsonScalar)
  | array (items : List JsonValue)
  | object (fields : List (String × JsonValue))

namespace JsonValue

theorem ind {P : JsonValue → Prop} (scalar : ∀ s, P (.scalar s))
    (array : ∀ items, (∀ v ∈ items, P v) → P (.array items))
    (object : ∀ fields, (∀ x ∈ fields, P x.2) → P (.object fields)) : ∀ v, P v
  | .scalar s      => scalar s
  | .array items   => array items fun v _ => ind scalar array object v
  | .object fields => object fields fun x _ => ind scalar array object x.2
decreasing_by
  · have := List.sizeOf_lt_of_mem ‹_ ∈ _›
    decreasing_tactic
  · have := List.sizeOf_lt_of_mem ‹_ ∈ _›
    cases x
    simp_all
    omega

mutual

def decEq : (a b : JsonValue) → Decidable (a = b)
  | scalar a, scalar b => decidable_of_iff (a = b) (by simp)
  | array xs, array ys =>
    match decEqItems xs ys with
    | isTrue h  => isTrue (h ▸ rfl)
    | isFalse h => isFalse (by simpa using h)
  | object xs, object ys =>
    match decEqFields xs ys with
    | isTrue h  => isTrue (h ▸ rfl)
    | isFalse h => isFalse (by simpa using h)
  | scalar _, array _ | scalar _, object _ | array _, scalar _ | array _, object _ | object _, scalar _
  | object _, array _ => isFalse (by simp)

def decEqItems : (xs ys : List JsonValue) → Decidable (xs = ys)
  | [], []           => isTrue rfl
  | x :: xs, y :: ys =>
    match decEq x y, decEqItems xs ys with
    | isTrue hx, isTrue hs => isTrue (by rw [hx, hs])
    | isFalse h, _         => isFalse (by simp [h])
    | _, isFalse h         => isFalse (by simp [h])
  | [], _ :: _ | _ :: _, [] => isFalse (by simp)

def decEqFields : (xs ys : List (String × JsonValue)) → Decidable (xs = ys)
  | [], []           => isTrue rfl
  | (k, x) :: xs, (l, y) :: ys =>
    match decEq x y, decEqFields xs ys with
    | isTrue hx, isTrue hs => decidable_of_iff (k = l) (by simp [hx, hs])
    | isFalse h, _         => isFalse (by simp [h])
    | _, isFalse h         => isFalse (by simp [h])
  | [], _ :: _ | _ :: _, [] => isFalse (by simp)

end

instance : DecidableEq JsonValue :=
  decEq

def type : JsonValue → JsonType
  | scalar s => s.type
  | array _  => .array
  | object _ => .object

-- The value under a key of an object.
def get? : JsonValue → String → Option JsonValue
  | object fields, k => fields.lookup k
  | _,             _ => none

mutual

def alike (r : JsonScalar → JsonScalar → Bool) : JsonValue → JsonValue → Bool
  | scalar a,  scalar b  => r a b
  | array xs,  array ys  => alikeItems r xs ys
  | object xs, object ys => alikeFields r [] xs ys && ys.all fun y => (xs.lookup y.1).isSome
  | _,         _         => false

def alikeItems (r : JsonScalar → JsonScalar → Bool) : List JsonValue → List JsonValue → Bool
  | [],      []      => true
  | x :: xs, y :: ys => alike r x y && alikeItems r xs ys
  | _,       _       => false

-- `seen` are the keys of the fields before: a repeated key counts once, with its first value.
def alikeFields (r : JsonScalar → JsonScalar → Bool) (seen : List String) :
    List (String × JsonValue) → List (String × JsonValue) → Bool
  | [],           _  => true
  | (k, x) :: xs, ys =>
    (seen.contains k ||
      (match ys.lookup k with
        | some y => alike r x y
        | none   => false)) &&
    alikeFields r (k :: seen) xs ys

end

mutual

-- No object in it repeats a key.
def distinct : JsonValue → Bool
  | scalar _      => true
  | array items   => distinctItems items
  | object fields => (fields.map Prod.fst).Nodup && distinctFields fields

def distinctItems : List JsonValue → Bool
  | []      => true
  | x :: xs => distinct x && distinctItems xs

def distinctFields : List (String × JsonValue) → Bool
  | []           => true
  | (_, x) :: xs => distinct x && distinctFields xs

end

@[simp]
theorem distinct_array {items : List JsonValue} : (array items).distinct ↔ ∀ v ∈ items, v.distinct := by
  rw [distinct]
  induction items
  case nil        => simp [distinctItems]
  case cons x xs hi => simp [distinctItems, hi]

@[simp]
theorem distinct_object {fields : List (String × JsonValue)} :
    (object fields).distinct ↔ (fields.map Prod.fst).Nodup ∧ ∀ x ∈ fields, x.2.distinct := by
  have hf : distinctFields fields ↔ ∀ x ∈ fields, x.2.distinct := by
    induction fields
    case nil          => simp [distinctFields]
    case cons x xs hi => simp [distinctFields, hi]
  rw [distinct, Bool.and_eq_true, decide_eq_true_iff, hf]

theorem forall₂_trans {α : Type} {R : α → α → Prop} {xs ys zs : List α}
    (ht : ∀ x ∈ xs, ∀ {y z}, R x y → R y z → R x z) (h : List.Forall₂ R xs ys) (h' : List.Forall₂ R ys zs) :
    List.Forall₂ R xs zs := by
  induction h generalizing zs
  case nil => exact h'
  case cons x y xs ys hxy _ hi =>
    cases h'
    case cons z zs hyz h' =>
      exact .cons (ht x (by simp) hxy hyz) (hi (fun x hx => ht x (by simp [hx])) h')

section Alike

variable {r r' : JsonScalar → JsonScalar → Bool} {x y z : JsonValue} {k : String}
variable {items items' : List JsonValue} {fields fields' : List (String × JsonValue)}

theorem alikeItems_iff : alikeItems r items items' ↔ List.Forall₂ (fun x y => alike r x y) items items' := by
  induction items generalizing items'
  case nil => cases items' <;> simp [alikeItems]
  case cons x xs hi => cases items' <;> simp [alikeItems, hi]

theorem alike_array : alike r (.array items) (.array items') ↔ List.Forall₂ (fun x y => alike r x y) items items' := by
  rw [alike, alikeItems_iff]

theorem lookup_cons_ite {α : Type} {l : String} {x : α} {rest : List (String × α)} :
    ((l, x) :: rest).lookup k = if k = l then some x else rest.lookup k := by
  rw [List.lookup_cons]
  by_cases h : k = l
  case pos => simp [h]
  case neg =>
    have hb : (k == l) = false := by simpa using h
    simp [h, hb]

theorem isSome_lookup {α : Type} {rest : List (String × α)} : (rest.lookup k).isSome ↔ ∃ x ∈ rest, x.1 = k := by
  induction rest
  case nil => simp
  case cons x xs hi =>
    obtain ⟨l, x⟩ := x
    rw [lookup_cons_ite]
    by_cases h : k = l
    case pos => simp [h]
    case neg =>
      have h' : ¬l = k := fun he => h he.symm
      simp [h, h', hi]

theorem mem_of_lookup {α : Type} {rest : List (String × α)} {x : α} (h : rest.lookup k = some x) : (k, x) ∈ rest := by
  obtain ⟨_, _, rfl, _⟩ := List.lookup_eq_some_iff.mp h
  simp

theorem lookup_eq_some_iff_mem {α β : Type} [BEq α] [LawfulBEq α] {l : List (α × β)} {a : α} {b : β}
    (hn : (l.map Prod.fst).Nodup) : l.lookup a = some b ↔ (a, b) ∈ l := by
  constructor
  case mp =>
    intro h
    obtain ⟨_, _, he, _⟩ := List.lookup_eq_some_iff.mp h
    simp [he]
  case mpr =>
    intro h
    obtain ⟨l₁, l₂, rfl⟩ := List.append_of_mem h
    rw [List.map_append, List.map_cons, List.nodup_append] at hn
    refine List.lookup_eq_some_iff.mpr ⟨l₁, l₂, rfl, fun x hx => ?_⟩
    have hne := hn.right.right x.1 (List.mem_map_of_mem hx) a (by simp)
    simpa using fun h => hne h.symm

theorem alikeFields_iff {seen : List String} : alikeFields r seen fields fields' ↔
    ∀ k, k ∉ seen → ∀ x ∈ fields.lookup k, ∃ y ∈ fields'.lookup k, alike r x y := by
  induction fields generalizing seen
  case nil => simp [alikeFields]
  case cons x xs hi =>
    obtain ⟨l, x⟩ := x
    have hb : (match fields'.lookup l with
        | some y => alike r x y
        | none   => false) = true ↔ ∃ y ∈ fields'.lookup l, alike r x y := by
      cases fields'.lookup l <;> simp
    rw [alikeFields, Bool.and_eq_true, Bool.or_eq_true, hb, hi, List.contains_iff_mem]
    constructor
    case mp =>
      rintro ⟨hl, hs⟩ k hk x' hx
      rw [lookup_cons_ite] at hx
      by_cases he : k = l
      case pos =>
        subst he
        rw [if_pos rfl] at hx
        cases hx
        exact hl.resolve_left hk
      case neg =>
        rw [if_neg he] at hx
        exact hs k (by simp [he, hk]) x' hx
    case mpr =>
      intro h
      refine ⟨?_, fun k hk x' hx => ?_⟩
      case refine_1 =>
        by_cases hl : l ∈ seen
        case pos => exact .inl hl
        case neg => exact .inr (h l hl x (by simp))
      case refine_2 =>
        simp only [List.mem_cons, not_or] at hk
        refine h k hk.right x' ?_
        rwa [lookup_cons_ite, if_neg hk.left]

theorem alike_object : alike r (.object fields) (.object fields') ↔
    ∀ k, Option.Rel (fun x y => alike r x y) (fields.lookup k) (fields'.lookup k) := by
  rw [alike, Bool.and_eq_true, alikeFields_iff, List.all_eq_true]
  constructor
  case mp =>
    rintro ⟨hx, hy⟩ k
    cases h : fields.lookup k
    case some x =>
      obtain ⟨y, hk, ha⟩ := hx k (by simp) x h
      rw [Option.mem_def.mp hk]
      exact .some ha
    case none =>
      cases h' : fields'.lookup k
      case none   => exact .none
      case some y =>
        obtain ⟨p, hp, rfl⟩ := isSome_lookup.mp (Option.isSome_of_eq_some h')
        have hs := hy p hp
        rw [h] at hs
        cases hs
  case mpr =>
    intro h
    refine ⟨fun k _ x hx => ?_, fun p hp => ?_⟩
    case refine_1 =>
      have hk := h k
      rw [Option.mem_def.mp hx] at hk
      cases h' : fields'.lookup k <;> rw [h'] at hk <;> cases hk
      exact ⟨_, rfl, ‹_›⟩
    case refine_2 =>
      have hs : (fields'.lookup p.1).isSome := isSome_lookup.mpr ⟨p, hp, rfl⟩
      have hk := h p.1
      revert hs hk
      cases fields.lookup p.1 <;> cases fields'.lookup p.1 <;> simp

theorem alike_refl (hr : ∀ a, r a a) : alike r x x := by
  induction x using ind
  case scalar s      => exact hr s
  case array items h => exact alike_array.mpr (List.forall₂_same.mpr h)
  case object fields h =>
    refine alike_object.mpr fun k => ?_
    cases hk : fields.lookup k
    case none   => exact .none
    case some v => exact .some (h (k, v) (mem_of_lookup hk))

theorem alike_mono (hr : ∀ a b, r a b → r' a b) (h : alike r x y) : alike r' x y := by
  induction x using ind generalizing y
  case scalar s =>
    cases y <;> simp only [alike] at h ⊢
    case scalar => exact hr _ _ h
    all_goals cases h
  case array items hi =>
    cases y <;> try cases h
    case array items' =>
      rw [alike_array] at h ⊢
      have hb := (List.forall₂_and_left _ _).mpr ⟨fun x hx => @hi x hx, h⟩
      exact hb.imp fun x y hxy => hxy.left hxy.right
  case object fields hi =>
    cases y <;> try cases h
    case object fields' =>
      rw [alike_object] at h ⊢
      intro k
      have hk := h k
      cases hf : fields.lookup k <;> cases hf' : fields'.lookup k <;> rw [hf, hf'] at hk <;> cases hk
      case none.none => exact .none
      case some.some hv => exact .some (hi _ (mem_of_lookup hf) hv)

theorem alike_symm (hr : ∀ a b, r a b → r b a) (h : alike r x y) : alike r y x := by
  induction x using ind generalizing y
  case scalar s =>
    cases y <;> simp only [alike] at h ⊢
    case scalar => exact hr _ _ h
    all_goals cases h
  case array items hi =>
    cases y <;> try cases h
    case array items' =>
      rw [alike_array] at h ⊢
      have hb := (List.forall₂_and_left _ _).mpr ⟨fun x hx => @hi x hx, h⟩
      exact (hb.imp (S := flip fun x y => alike r x y) fun x y hxy => hxy.left hxy.right).flip
  case object fields hi =>
    cases y <;> try cases h
    case object fields' =>
      rw [alike_object] at h ⊢
      intro k
      have hk := h k
      cases hf : fields.lookup k <;> cases hf' : fields'.lookup k <;> rw [hf, hf'] at hk <;> cases hk
      case none.none => exact .none
      case some.some hv => exact .some (hi _ (mem_of_lookup hf) hv)

theorem alike_trans (hr : ∀ a b c, r a b → r b c → r a c) (h : alike r x y) (h' : alike r y z) : alike r x z := by
  induction x using ind generalizing y z
  case scalar s =>
    cases y <;> simp only [alike] at h <;> try cases h
    cases z <;> simp only [alike] at h' ⊢ <;> try cases h'
    exact hr _ _ _ h h'
  case array items hi =>
    cases y <;> try cases h
    cases z <;> try cases h'
    case array.array =>
      rw [alike_array] at h h' ⊢
      exact forall₂_trans (fun x hx y z => hi x hx) h h'
  case object fields hi =>
    cases y <;> try cases h
    cases z <;> try cases h'
    case object.object fields' fields'' =>
      rw [alike_object] at h h' ⊢
      intro k
      have hk := h k
      have hk' := h' k
      cases hf : fields.lookup k <;> cases hf' : fields'.lookup k <;> rw [hf, hf'] at hk <;> cases hk <;>
        cases hf'' : fields''.lookup k <;> rw [hf', hf''] at hk' <;> cases hk'
      case none.none => exact .none
      case some.some hv _ hv' => exact .some (hi _ (mem_of_lookup hf) hv hv')

end Alike

end JsonValue

-- What a JSON value says, whatever the order of its fields: its canonical text, and what a digest of that stands for.

namespace JsonValue

def exact (a b : JsonScalar) : Bool :=
  a = b

theorem exact_iff {a b : JsonScalar} : exact a b ↔ a = b :=
  decide_eq_true_iff

def contents : Setoid JsonValue where
  r x y := alike exact x y
  iseqv := {
    refl  := fun _ => alike_refl fun _ => exact_iff.mpr rfl
    symm  := alike_symm fun _ _ h => exact_iff.mpr (exact_iff.mp h).symm
    trans := alike_trans fun _ _ _ h h' => exact_iff.mpr ((exact_iff.mp h).trans (exact_iff.mp h')) }

def Content : Type :=
  Quotient contents

def content (v : JsonValue) : Content :=
  Quotient.mk contents v

variable {x y : JsonValue}

theorem content_eq_iff : content x = content y ↔ alike exact x y :=
  ⟨Quotient.exact, fun h => Quotient.sound (s := contents) h⟩

instance : DecidableEq Content :=
  fun a b => Quotient.recOnSubsingleton₂ a b fun _ _ => decidable_of_iff _ content_eq_iff.symm

theorem content_scalar {a b : JsonScalar} (h : content (.scalar a) = content (.scalar b)) : a = b :=
  exact_iff.mp (by simpa [alike] using content_eq_iff.mp h)

theorem content_array {xs ys : List JsonValue} :
    content (.array xs) = content (.array ys) ↔ List.Forall₂ (fun x y => content x = content y) xs ys := by
  rw [content_eq_iff, alike_array]
  simp only [content_eq_iff]

-- Fields of equal content have equal content.
theorem content_get (key : String) (h : content x = content y) : (x.get? key).map content = (y.get? key).map content := by
  have ha := content_eq_iff.mp h
  cases x with
  | object fields =>
    cases y with
    | object fields' =>
      have hk := alike_object.mp ha key
      simp only [get?]
      generalize fields.lookup key = v at hk ⊢
      generalize fields'.lookup key = v' at hk ⊢
      cases hk with
      | none    => rfl
      | some hv => exact congrArg some (content_eq_iff.mpr hv)
    | _ => simp [alike] at ha
  | scalar => cases y <;> first | rfl | simp [alike] at ha
  | array  => cases y <;> first | rfl | simp [alike] at ha

end JsonValue
