import Agentihooks.Library.JsonText
import Agentihooks.Library.JsonValue

-- The compact JSON text of a value, and the scalar that a text is. A text stands for one value only, also where more
-- text follows it.

namespace JsonText

-- What floats are printed as. A fraction or an exponent tells them from whole numbers.
structure Floats where
  repr     : Bool → ℚ → List Char
  read     : List Char → Option (Bool × ℚ)
  printed  : ∀ n m, read (repr n m) = some (n, m)
  numeral  : ∀ n m, ∀ c ∈ repr n m, c.isDigit ∨ c ∈ ['-', '+', '.', 'e']
  fraction : ∀ n m, ∃ c ∈ repr n m, c = '.' ∨ c = 'e'
  starts   : ∀ n m c, (repr n m).head? = some c → c.isDigit ∨ c = '-'

variable (floats : Floats)

def intText (n : ℤ) : List Char :=
  if n < 0 then '-' :: Nat.toDigits 10 n.natAbs else Nat.toDigits 10 n.natAbs

def encodeScalar : JsonScalar → List Char
  | .null       => "null".toList
  | .bool true  => "true".toList
  | .bool false => "false".toList
  | .int n      => intText n
  | .float n m  => floats.repr n m
  | .str s      => quote false s.toList

mutual

def encode : JsonValue → List Char
  | .scalar s      => encodeScalar floats s
  | .array items   => '[' :: [','].intercalate (encodeItems items) ++ [']']
  | .object fields => '{' :: [','].intercalate (encodeFields fields) ++ ['}']

def encodeItems : List JsonValue → List (List Char)
  | []            => []
  | item :: items => encode item :: encodeItems items

def encodeFields : List (String × JsonValue) → List (List Char)
  | []                  => []
  | (name, v) :: fields => (quote false name.toList ++ ':' :: encode v) :: encodeFields fields

end

def readInt : List Char → Option ℤ
  | '-' :: text =>
    match natural text with
    | some (n, []) => some (-n)
    | _            => none
  | text        =>
    match natural text with
    | some (n, []) => some n
    | _            => none

-- The scalar that a text with no blanks around it is.
def readScalar : List Char → Option JsonScalar
  | '"' :: text =>
    match scan text with
    | some (s, []) => some (.str (.ofList s))
    | _            => none
  | text        =>
    if text = "null".toList then some .null
    else if text = "true".toList then some (.bool true)
    else if text = "false".toList then some (.bool false)
    else if text.any fun c => c = '.' || c = 'e' || c = 'E' then (floats.read text).map fun x => .float x.1 x.2
    else (readInt text).map .int

def word (c : Char) : Bool :=
  c ∉ [',', ']', '}']

-- The scalar that a text begins with.
def readNext : List Char → Option (JsonScalar × List Char)
  | '"' :: text => (scan text).map fun read => (.str (.ofList read.1), read.2)
  | text        => (readScalar floats (text.takeWhile word)).map fun s => (s, text.dropWhile word)

-- The scalars that follow the first one of an array, which is at most as many as there are characters.
def readMore : ℕ → List Char → Option (List JsonScalar)
  | _,        [']']       => some []
  | fuel + 1, ',' :: text =>
    match readNext floats text with
    | none           => none
    | some (s, rest) => (readMore fuel rest).map (s :: ·)
  | _,        _           => none

-- The items of an array of scalars, in a text without blanks.
def readScalars : List Char → Option (List JsonScalar)
  | ['[', ']']  => some []
  | '[' :: text =>
    match readNext floats text with
    | none           => none
    | some (s, rest) => (readMore floats rest.length rest).map (s :: ·)
  | _           => none

variable {floats}

section Numbers

theorem isDigit_of_mem {n : ℕ} {c : Char} (h : c ∈ Nat.toDigits 10 n) : c.isDigit :=
  Nat.isDigit_of_mem_toDigits (by decide) (by decide) h

theorem natural_all (n : ℕ) : natural (Nat.toDigits 10 n) = some (n, []) := by
  have h := natural_toDigits n [] fun _ hc => by cases hc
  rwa [List.append_nil] at h

theorem readInt_intText (n : ℤ) : readInt (intText n) = some n := by
  unfold intText
  split_ifs with hn
  case pos =>
    simp only [readInt, natural_all]
    congr 1
    omega
  case neg =>
    have hm : ∀ text, Nat.toDigits 10 n.natAbs ≠ '-' :: text := by
      intro text h
      have hd := isDigit_of_mem (n := n.natAbs) (c := '-') (h ▸ List.mem_cons_self)
      revert hd
      decide
    rw [readInt]
    case x_1 => exact hm
    rw [natural_all]
    simp
    omega

theorem head_intText {n : ℤ} {c : Char} (h : (intText n).head? = some c) : c.isDigit ∨ c = '-' := by
  unfold intText at h
  split_ifs at h
  case pos => exact .inr (Option.some.inj h).symm
  case neg => exact .inl (isDigit_of_mem (List.mem_of_head? h))

theorem mem_intText {n : ℤ} {c : Char} (h : c ∈ intText n) : c.isDigit ∨ c = '-' := by
  unfold intText at h
  split_ifs at h
  case pos =>
    rcases List.mem_cons.mp h with rfl | h
    · exact .inr rfl
    · exact .inl (isDigit_of_mem h)
  case neg => exact .inl (isDigit_of_mem h)

end Numbers

section Scalars

theorem readScalar_numeral {text : List Char} (h : ∀ c, text.head? = some c → c.isDigit ∨ c = '-') :
    readScalar floats text =
      if text.any fun c => c = '.' || c = 'e' || c = 'E' then (floats.read text).map fun x => .float x.1 x.2
      else (readInt text).map .int := by
  have hn {c : Char} {rest : List Char} (hd : c.isDigit = false) (hm : c ≠ '-') : text ≠ c :: rest := by
    intro ht
    obtain hc | hc := h c (by rw [ht, List.head?_cons])
    case inl => simp [hd] at hc
    case inr => exact hm hc
  rw [readScalar]
  case x_1 => exact fun _ => hn (by decide) (by decide)
  have hnull : text ≠ "null".toList := hn (by decide) (by decide)
  have htrue : text ≠ "true".toList := hn (by decide) (by decide)
  have hfalse : text ≠ "false".toList := hn (by decide) (by decide)
  rw [if_neg hnull, if_neg htrue, if_neg hfalse]

theorem readScalar_encodeScalar (s : JsonScalar) : readScalar floats (encodeScalar floats s) = some s := by
  cases s
  case null      => rfl
  case bool b    => cases b <;> rfl
  case str s     =>
    simp only [encodeScalar, quote, List.cons_append, readScalar, scan_quote]
    simp
  case int n     =>
    have ha : ((intText n).any fun c => c = '.' || c = 'e' || c = 'E') = false := by
      rw [List.any_eq_false]
      intro c hc he
      simp only [Bool.or_eq_true, decide_eq_true_eq] at he
      obtain hd | rfl := mem_intText hc
      case inl => obtain (rfl | rfl) | rfl := he <;> revert hd <;> decide
      case inr => revert he; decide
    rw [encodeScalar, readScalar_numeral fun _ => head_intText, ha, readInt_intText]
    rfl
  case float n m =>
    have ha : (floats.repr n m).any fun c => c = '.' || c = 'e' || c = 'E' := by
      obtain ⟨c, hc, he⟩ := floats.fraction n m
      refine List.any_eq_true.mpr ⟨c, hc, ?_⟩
      obtain rfl | rfl := he <;> decide
    rw [encodeScalar, readScalar_numeral (floats.starts n m), ha, floats.printed]
    rfl

end Scalars

section Injective

-- What the first character says of a value.
inductive Shape
  | null
  | true
  | false
  | str
  | number
  | array
  | object
  deriving DecidableEq

def scalarShape : JsonScalar → Shape
  | .null       => .null
  | .bool true  => .true
  | .bool false => .false
  | .str _      => .str
  | .int _      => .number
  | .float _ _  => .number

def shape : JsonValue → Shape
  | .scalar s => scalarShape s
  | .array _  => .array
  | .object _ => .object

def shapeOf (c : Char) : Option Shape :=
  if c = 'n' then some .null
  else if c = 't' then some .true
  else if c = 'f' then some .false
  else if c = '"' then some .str
  else if c = '[' then some .array
  else if c = '{' then some .object
  else if c.isDigit ∨ c = '-' then some .number
  else none

theorem shapeOf_numeral {c : Char} (h : c.isDigit ∨ c = '-') : shapeOf c = some .number := by
  have hn {d : Char} (hd : d.isDigit = false) (hm : d ≠ '-') : c ≠ d := by
    rintro rfl
    simp [hd, hm] at h
  simp only [shapeOf, hn (d := 'n') (by decide) (by decide), hn (d := 't') (by decide) (by decide),
    hn (d := 'f') (by decide) (by decide), hn (d := '"') (by decide) (by decide),
    hn (d := '[') (by decide) (by decide), hn (d := '{') (by decide) (by decide), h, if_false, if_true]

theorem intText_ne_nil (n : ℤ) : intText n ≠ [] := by
  unfold intText
  split_ifs
  case pos => exact List.cons_ne_nil _ _
  case neg => exact Nat.toDigits_ne_nil

theorem repr_ne_nil (n : Bool) (m : ℚ) : floats.repr n m ≠ [] := by
  intro h
  obtain ⟨c, hc, _⟩ := floats.fraction n m
  rw [h] at hc
  cases hc

variable (floats) in
theorem head_encode (v : JsonValue) : ∃ c, (encode floats v).head? = some c ∧ shapeOf c = some (shape v) := by
  have hnumber {text : List Char} (hn : text ≠ []) (h : ∀ c, text.head? = some c → c.isDigit ∨ c = '-') :
      ∃ c, text.head? = some c ∧ shapeOf c = some .number :=
    ⟨text.head hn, List.head?_eq_some_head hn, shapeOf_numeral (h _ (List.head?_eq_some_head hn))⟩
  cases v
  case array  => exact ⟨'[', by simp [encode], by rw [shape]; decide⟩
  case object => exact ⟨'{', by simp [encode], by rw [shape]; decide⟩
  case scalar s =>
    rw [encode]
    cases s
    case null      => exact ⟨'n', rfl, by decide⟩
    case bool b    => cases b <;> exact ⟨_, rfl, by decide⟩
    case str s     => exact ⟨'"', by simp [encodeScalar, quote], by rw [shape, scalarShape]; decide⟩
    case int n     => exact hnumber (intText_ne_nil n) fun _ => head_intText
    case float n m => exact hnumber (repr_ne_nil n m) (floats.starts n m)

-- What may follow a value in a text: nothing, or a character that is in no number.
def Stops (rest : List Char) : Prop :=
  ∀ c, rest.head? = some c → c ∈ [',', ']', '}']

theorem stops_cons {c : Char} {rest : List Char} (h : c ∈ [',', ']', '}']) : Stops (c :: rest) := by
  rintro d hd
  cases hd
  exact h

def numeral (c : Char) : Bool :=
  c.isDigit || c ∈ ['-', '+', '.', 'e']

theorem takeWhile_numeral {text rest : List Char} (h : ∀ c ∈ text, numeral c) (hs : Stops rest) :
    (text ++ rest).takeWhile numeral = text := by
  rw [List.takeWhile_append_of_pos h]
  cases rest
  case nil         => simp
  case cons c rest =>
    have hc : ∀ c ∈ [',', ']', '}'], numeral c = false := by simp [numeral]
    simp [hc c (hs c rfl)]

theorem numeral_encodeScalar {s : JsonScalar} (h : scalarShape s = .number) : ∀ c ∈ encodeScalar floats s, numeral c := by
  intro c hc
  cases s
  case null   => cases h
  case bool b => cases b <;> cases h
  case str    => cases h
  case int n  =>
    obtain hd | rfl := mem_intText hc
    case inl => simp [numeral, hd]
    case inr => decide
  case float n m => simpa [numeral] using floats.numeral n m c hc

-- A text that starts with one value starts with no other one.
def Tells (floats : Floats) (v : JsonValue) : Prop :=
  ∀ w r r', encode floats v ++ r = encode floats w ++ r' → Stops r → Stops r' → v = w ∧ r = r'

theorem shape_eq {v w : JsonValue} {r r' : List Char} (h : encode floats v ++ r = encode floats w ++ r') :
    shape v = shape w := by
  obtain ⟨c, hc, hv⟩ := head_encode floats v
  obtain ⟨d, hd, hw⟩ := head_encode floats w
  have hh := congrArg List.head? h
  rw [List.head?_append, List.head?_append, hc, hd] at hh
  cases hh
  exact Option.some.inj (hv.symm.trans hw)

theorem number_tells {s t : JsonScalar} (hs : scalarShape s = .number) (ht : scalarShape t = .number)
    {r r' : List Char} (h : encodeScalar floats s ++ r = encodeScalar floats t ++ r') (hr : Stops r) (hr' : Stops r') :
    s = t ∧ r = r' := by
  have he := congrArg (List.takeWhile numeral) h
  rw [takeWhile_numeral (numeral_encodeScalar hs) hr, takeWhile_numeral (numeral_encodeScalar ht) hr'] at he
  have hst := congrArg (readScalar floats) he
  rw [readScalar_encodeScalar, readScalar_encodeScalar] at hst
  obtain rfl := Option.some.inj hst
  exact ⟨rfl, List.append_cancel_left h⟩

theorem quote_tells {s t : List Char} {r r' : List Char} (h : quote false s ++ r = quote false t ++ r') :
    s = t ∧ r = r' := by
  simp only [quote, List.cons_append, List.append_assoc, List.nil_append, List.cons.injEq, true_and] at h
  have he := congrArg scan h
  rw [scan_quote, scan_quote] at he
  exact Prod.mk.inj (Option.some.inj he)

theorem scalarShape_cases {s t : JsonScalar} (h : scalarShape s = scalarShape t) :
    s = t ∨ (∃ a b, s = .str a ∧ t = .str b) ∨ (scalarShape s = .number ∧ scalarShape t = .number) := by
  rcases s with _ | (_ | _) | _ | _ | _ <;> rcases t with _ | (_ | _) | _ | _ | _ <;> simp_all [scalarShape]

theorem scalarShape_ne (s : JsonScalar) : scalarShape s ≠ .array ∧ scalarShape s ≠ .object := by
  rcases s with _ | (_ | _) | _ | _ | _ <;> simp [scalarShape]

theorem scalar_tells (s : JsonScalar) : Tells floats (.scalar s) := by
  intro w r r' h hr hr'
  have hs := shape_eq h
  cases w
  case array  => exact absurd hs (scalarShape_ne s).left
  case object => exact absurd hs (scalarShape_ne s).right
  case scalar t =>
    rw [encode, encode] at h
    obtain rfl | ⟨a, b, rfl, rfl⟩ | ⟨hs, ht⟩ := scalarShape_cases hs
    · exact ⟨rfl, List.append_cancel_left h⟩
    · obtain ⟨hab, rfl⟩ := quote_tells h
      rw [String.toList_inj.mp hab]
      exact ⟨rfl, rfl⟩
    · obtain ⟨rfl, rfl⟩ := number_tells hs ht h hr hr'
      exact ⟨rfl, rfl⟩

section Sequences

variable {α : Type} {f : α → List Char} {close : Char} {xs ys : List α} {r r' : List Char}

theorem intercalate_cons_eq (t : List Char) (ts : List (List Char)) :
    [','].intercalate (t :: ts) = t ++ ts.flatMap (',' :: ·) := by
  induction ts generalizing t
  case nil          => simp
  case cons u ts hi => simp [List.intercalate_cons_cons, hi u]

theorem more_tells (hc : close ∈ [']', '}'])
    (hf : ∀ x ∈ xs, ∀ y r r', f x ++ r = f y ++ r' → Stops r → Stops r' → x = y ∧ r = r')
    (h : (xs.flatMap fun x => ',' :: f x) ++ close :: r = (ys.flatMap fun x => ',' :: f x) ++ close :: r') :
    xs = ys ∧ r = r' := by
  have hne : ',' ≠ close := by
    rintro rfl
    revert hc
    decide
  have hstop {zs : List α} {r : List Char} : Stops ((zs.flatMap fun x => ',' :: f x) ++ close :: r) := by
    cases zs
    case nil  => exact stops_cons (List.mem_cons_of_mem _ hc)
    case cons => exact stops_cons List.mem_cons_self
  induction xs generalizing ys
  case nil =>
    cases ys
    case nil  => exact ⟨rfl, (List.cons.inj h).right⟩
    case cons => exact absurd (List.cons.inj h).left.symm hne
  case cons x xs hi =>
    cases ys
    case nil => exact absurd (List.cons.inj h).left hne
    case cons y ys =>
      simp only [List.flatMap_cons, List.cons_append, List.append_assoc, List.cons.injEq, true_and] at h
      rw [List.forall_mem_cons] at hf
      obtain ⟨rfl, hrest⟩ := hf.left y _ _ h hstop hstop
      obtain ⟨rfl, rfl⟩ := hi hf.right hrest
      exact ⟨rfl, rfl⟩

theorem sequence_tells (hc : close ∈ [']', '}'])
    (hf : ∀ x ∈ xs, ∀ y r r', f x ++ r = f y ++ r' → Stops r → Stops r' → x = y ∧ r = r')
    (hh : ∀ x, ∃ c, (f x).head? = some c ∧ c ≠ close)
    (h : [','].intercalate (xs.map f) ++ close :: r = [','].intercalate (ys.map f) ++ close :: r') :
    xs = ys ∧ r = r' := by
  have hopen {z : α} {t r r' : List Char} : close :: r ≠ f z ++ t ++ close :: r' := by
    intro he
    obtain ⟨c, hz, hne⟩ := hh z
    have hhead := congrArg List.head? he
    rw [List.append_assoc, List.head?_append, hz] at hhead
    exact hne (Option.some.inj hhead).symm
  cases xs
  case nil =>
    cases ys
    case nil       => exact ⟨rfl, (List.cons.inj h).right⟩
    case cons y ys =>
      rw [List.map_cons, intercalate_cons_eq] at h
      exact absurd h hopen
  case cons x xs =>
    cases ys
    case nil =>
      rw [List.map_cons, intercalate_cons_eq] at h
      exact absurd h.symm hopen
    case cons y ys =>
      have hm : (x :: xs).flatMap (fun x => ',' :: f x) ++ close :: r =
          (y :: ys).flatMap (fun x => ',' :: f x) ++ close :: r' := by
        rw [List.map_cons, List.map_cons, intercalate_cons_eq, intercalate_cons_eq] at h
        simpa [List.flatMap_map] using h
      exact more_tells hc hf hm

end Sequences

theorem encodeItems_eq (items : List JsonValue) : encodeItems floats items = items.map (encode floats) := by
  induction items
  case nil                => rfl
  case cons item items hi => rw [encodeItems, hi, List.map_cons]

def encodeField (floats : Floats) (x : String × JsonValue) : List Char :=
  quote false x.1.toList ++ ':' :: encode floats x.2

theorem encodeFields_eq (fields : List (String × JsonValue)) :
    encodeFields floats fields = fields.map (encodeField floats) := by
  induction fields
  case nil               => rfl
  case cons x fields hi =>
    obtain ⟨name, v⟩ := x
    rw [encodeFields, hi, List.map_cons, encodeField]

theorem encode_tells (v : JsonValue) : Tells floats v := by
  induction v using JsonValue.ind
  case scalar s => exact scalar_tells s
  case array items hi =>
    intro w r r' h hr hr'
    have hs := shape_eq h
    cases w
    case scalar s => exact absurd hs.symm (scalarShape_ne s).left
    case object   => cases hs
    case array items' =>
      simp only [encode, encodeItems_eq, List.cons_append, List.append_assoc, List.nil_append, List.cons.injEq,
        true_and] at h
      have hh : ∀ x, ∃ c, (encode floats x).head? = some c ∧ c ≠ ']' := by
        intro x
        obtain ⟨c, hc, hx⟩ := head_encode floats x
        refine ⟨c, hc, ?_⟩
        rintro rfl
        cases hx
      obtain ⟨rfl, rfl⟩ := sequence_tells (by decide) hi hh h
      exact ⟨rfl, rfl⟩
  case object fields hi =>
    intro w r r' h hr hr'
    have hs := shape_eq h
    cases w
    case scalar s => exact absurd hs.symm (scalarShape_ne s).right
    case array    => cases hs
    case object fields' =>
      simp only [encode, encodeFields_eq, List.cons_append, List.append_assoc, List.nil_append, List.cons.injEq,
        true_and] at h
      have hh : ∀ x, ∃ c, (encodeField floats x).head? = some c ∧ c ≠ '}' :=
        fun x => ⟨'"', by simp [encodeField, quote], by decide⟩
      have hf : ∀ x ∈ fields, ∀ y r r', encodeField floats x ++ r = encodeField floats y ++ r' → Stops r → Stops r' →
          x = y ∧ r = r' := by
        rintro ⟨k, x⟩ hx ⟨l, y⟩ r r' he hr hr'
        simp only [encodeField, List.append_assoc, List.cons_append] at he
        obtain ⟨hkl, he⟩ := quote_tells he
        obtain ⟨rfl, rfl⟩ := hi _ hx _ _ _ (List.cons.inj he).right hr hr'
        rw [String.toList_inj.mp hkl]
        exact ⟨rfl, rfl⟩
      obtain ⟨rfl, rfl⟩ := sequence_tells (by decide) hf hh h
      exact ⟨rfl, rfl⟩

theorem encode_injective : Function.Injective (encode floats) := by
  intro v w h
  have hnil : Stops [] := fun _ hc => by cases hc
  exact (encode_tells v w [] [] (by rw [h]) hnil hnil).left

end Injective

section Read

variable {s : JsonScalar} {ss : List JsonScalar} {rest : List Char}

variable (floats) in
theorem word_encodeScalar (hs : ∀ a, s ≠ .str a) : ∀ c ∈ encodeScalar floats s, word c := by
  have hnumeral : ∀ c, numeral c → word c := by
    intro c hc
    by_contra hw
    simp only [word, Bool.not_eq_true, decide_eq_false_iff_not, not_not] at hw
    have hn : ∀ d ∈ [',', ']', '}'], numeral d = false := by simp [numeral]
    rw [hn c hw] at hc
    cases hc
  cases s
  case str a  => exact absurd rfl (hs a)
  case null   => simp [encodeScalar, word]
  case bool b => cases b <;> simp [encodeScalar, word]
  all_goals exact fun c hc => hnumeral c (numeral_encodeScalar rfl c hc)

theorem readNext_encodeScalar (h : Stops rest) : readNext floats (encodeScalar floats s ++ rest) = some (s, rest) := by
  by_cases hs : ∃ a, s = .str a
  case pos =>
    obtain ⟨a, rfl⟩ := hs
    simp [encodeScalar, quote, readNext, scan_quote]
  case neg =>
    have hw := word_encodeScalar floats fun a ha => hs ⟨a, ha⟩
    have ht : (encodeScalar floats s ++ rest).takeWhile word = encodeScalar floats s := by
      rw [List.takeWhile_append_of_pos hw]
      cases rest
      case nil         => simp
      case cons c rest => simp [word, h c rfl]
    have hd : (encodeScalar floats s ++ rest).dropWhile word = rest := by
      rw [List.dropWhile_append_of_pos hw]
      cases rest
      case nil         => rfl
      case cons c rest => simp [word, h c rfl]
    rw [readNext]
    case x_1 =>
      intro text he
      obtain ⟨c, hc, hshape⟩ := head_encode floats (.scalar s)
      have hhead := congrArg List.head? he
      rw [List.head?_append, show (encodeScalar floats s).head? = some c from hc] at hhead
      cases hhead
      rcases s with _ | (_ | _) | _ | _ | a <;> cases hshape
      exact hs ⟨a, rfl⟩
    rw [ht, hd, readScalar_encodeScalar, Option.map_some]

theorem readMore_encode {fuel : ℕ} (h : ss.length ≤ fuel) :
    readMore floats fuel ((ss.flatMap fun s => ',' :: encodeScalar floats s) ++ [']']) = some ss := by
  induction ss generalizing fuel
  case nil => cases fuel <;> rfl
  case cons s ss hi =>
    cases fuel
    case zero => simp at h
    case succ fuel =>
      have hstop : Stops ((ss.flatMap fun s => ',' :: encodeScalar floats s) ++ [']']) := by
        cases ss
        case nil  => exact stops_cons (by decide)
        case cons => exact stops_cons (by decide)
      simp only [List.flatMap_cons, List.cons_append, List.append_assoc, readMore, readNext_encodeScalar hstop,
        hi (Nat.le_of_succ_le_succ h), Option.map_some]

-- An array of scalars is read back.
theorem readScalars_encode : readScalars floats (encode floats (.array (ss.map .scalar))) = some ss := by
  have hlength (ss : List JsonScalar) : ss.length ≤ (ss.flatMap fun s => ',' :: encodeScalar floats s).length := by
    induction ss
    case nil          => exact Nat.le_refl _
    case cons s ss hi =>
      rw [List.flatMap_cons, List.length_append, List.length_cons, List.length_cons]
      omega
  cases ss
  case nil => rfl
  case cons s ss =>
    have hstop : Stops ((ss.flatMap fun s => ',' :: encodeScalar floats s) ++ [']']) := by
      cases ss
      case nil  => exact stops_cons (by decide)
      case cons => exact stops_cons (by decide)
    have he : encode floats (.array ((s :: ss).map .scalar)) =
        '[' :: (encodeScalar floats s ++ ((ss.flatMap fun s => ',' :: encodeScalar floats s) ++ [']'])) := by
      rw [encode, encodeItems_eq, List.map_cons, List.map_cons, intercalate_cons_eq]
      simp [List.flatMap_map, encode]
    have hmore : readMore floats ((ss.flatMap fun s => ',' :: encodeScalar floats s) ++ [']']).length
        ((ss.flatMap fun s => ',' :: encodeScalar floats s) ++ [']']) = some ss := by
      refine readMore_encode ?_
      rw [List.length_append]
      exact Nat.le_add_right_of_le (hlength ss)
    rw [he, readScalars]
    case x_1 =>
      intro hclose
      obtain ⟨c, hc, hshape⟩ := head_encode floats (.scalar s)
      have hhead := congrArg List.head? hclose
      rw [List.head?_append, show (encodeScalar floats s).head? = some c from hc] at hhead
      cases hhead
      cases hshape
    rw [readNext_encodeScalar hstop]
    dsimp only
    rw [hmore, Option.map_some]

end Read

end JsonText
