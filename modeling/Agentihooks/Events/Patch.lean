import Agentihooks.Library.JsonValue

-- Structural patches between two JSON values.

namespace Events

-- A patch replaces a value, deletes a key, patches an object by key, drops the first items of a list and appends new
-- ones, or reorders a list by id. Of a list, items can be upserted by their ids.
inductive Patch
  | value (v : JsonValue)
  | delete
  | keys (parts : List (String × Patch))
  | slide (drop : ℕ) (add upserts : List JsonValue)
  | order (ids : List String) (upserts : List JsonValue)

-- `same`: true is not 1, and 1.0 is not 1.
def same (a b : JsonValue) : Bool :=
  a.alike JsonScalar.strict b

def sameItems (xs ys : List JsonValue) : Bool :=
  same (.array xs) (.array ys)

def idOf (item : JsonValue) : Option String :=
  match item.get? "id" with
  | some (.scalar (.str id)) => some id
  | _                        => none

-- `ids_of`: the ids of items that all have one and of which no two have the same.
def idsOf (items : List JsonValue) : Option (List String) :=
  (items.mapM idOf).filter fun ids => ids.Nodup

-- The item that a dictionary by id holds: the last one of its id.
def byId (items : List JsonValue) (id : String) : Option JsonValue :=
  items.reverse.find? fun item => idOf item = some id

-- How many items of `old` to drop so that the rest of it starts `new`.
def overlap {α : Type} (same : List α → List α → Bool) (old new : List α) : ℕ :=
  ((List.range old.length).find? fun drop =>
    old.length - drop ≤ new.length ∧ same (old.drop drop) (new.take (old.length - drop))).getD old.length

-- The items that are not the same as those of their ids before.
def upserts (before items : List JsonValue) : List JsonValue :=
  items.filter fun item => ¬((idOf item).bind (byId before)).any (same · item)

def listDiff (old new : List JsonValue) : Patch :=
  match idsOf old, idsOf new with
  | some oldIds, some newIds =>
    let kept := oldIds.length - overlap (· == ·) oldIds newIds
    if kept * 2 < newIds.length then
      .order newIds (upserts old new)
    else
      .slide (oldIds.length - kept) (new.drop kept) (upserts old (new.take kept))
  | _,           _           =>
    let drop := overlap sameItems old new
    .slide drop (new.drop (old.length - drop)) []

-- The patches of the fields that only the old object has, and of those that only the new one has.
def deleted (olds fields : List (String × JsonValue)) : List (String × Patch) :=
  (olds.filter fun x => (fields.lookup x.1).isNone).map fun x => (x.1, .delete)

def added (olds fields : List (String × JsonValue)) : List (String × Patch) :=
  (fields.filter fun x => (olds.lookup x.1).isNone).map fun x => (x.1, .value x.2)

mutual

def diff (old : JsonValue) : JsonValue → Option Patch
  | .scalar s      => if same old (.scalar s) then none else some (.value (.scalar s))
  | .array items   =>
    if same old (.array items) then
      none
    else
      match old with
      | .array olds => some (listDiff olds items)
      | _           => some (.value (.array items))
  | .object fields =>
    if same old (.object fields) then
      none
    else
      match old with
      | .object olds => some (.keys (deleted olds fields ++ added olds fields ++ diffFields olds fields))
      | _            => some (.value (.object fields))

-- The patches of the fields that both have.
def diffFields (olds : List (String × JsonValue)) : List (String × JsonValue) → List (String × Patch)
  | []             => []
  | (k, v) :: rest =>
    match olds.lookup k with
    | some old => ((diff old v).map (k, ·)).toList ++ diffFields olds rest
    | none     => diffFields olds rest

end

-- `out[key] = value`.
def assign (key : String) (value : JsonValue) : List (String × JsonValue) → List (String × JsonValue)
  | []             => [(key, value)]
  | (k, v) :: rest => if k = key then (key, value) :: rest else (k, v) :: assign key value rest

def fieldsOf : JsonValue → List (String × JsonValue)
  | .object fields => fields
  | _              => []

def itemsOf : JsonValue → List JsonValue
  | .array items => items
  | _            => []

mutual

def apply (value : JsonValue) : Patch → JsonValue
  | .value v           => v
  | .delete            => value
  | .keys parts        => .object (applyKeys (fieldsOf value) parts)
  | .slide drop add us =>
    .array ((((itemsOf value).drop drop).map fun item => ((idOf item).bind (byId us)).getD item) ++ add)
  | .order ids us      => .array (ids.map fun id => ((byId us id).or (byId (itemsOf value) id)).getD (.scalar .null))

def applyKeys (out : List (String × JsonValue)) : List (String × Patch) → List (String × JsonValue)
  | []                => out
  | (k, part) :: rest =>
    match part with
    | .delete => applyKeys (out.filter fun x => x.1 ≠ k) rest
    | part    => applyKeys (assign k (apply ((out.lookup k).getD (.scalar .null)) part) out) rest

end

section Raises

def isObject : JsonValue → Bool
  | .object _ => true
  | _         => false

def isArray : JsonValue → Bool
  | .array _ => true
  | _        => false

def haveIds (items : List JsonValue) : Bool :=
  items.all fun item => (idOf item).isSome

mutual

-- `apply` raises nothing: there is an object or a list where it takes one, and an id on every item it takes one of.
def applies (value : JsonValue) : Patch → Bool
  | .value _         => true
  | .delete          => true
  | .keys parts      => isObject value && appliesKeys (fieldsOf value) parts
  | .slide drop _ us => isArray value && haveIds us && (us.isEmpty || haveIds ((itemsOf value).drop drop))
  | .order _ us      => isArray value && haveIds us && haveIds (itemsOf value)

def appliesKeys (out : List (String × JsonValue)) : List (String × Patch) → Bool
  | []                => true
  | (k, part) :: rest =>
    match part with
    | .delete => appliesKeys (out.filter fun x => x.1 ≠ k) rest
    | part    =>
      let value := (out.lookup k).getD (.scalar .null)
      applies value part && appliesKeys (assign k (apply value part) out) rest

end

end Raises

end Events
