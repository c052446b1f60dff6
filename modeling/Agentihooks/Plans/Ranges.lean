import Agentihooks.Library.KeyTable
import Agentihooks.Library.Text

-- The lines of a plan that belong to a phase or a slice. Lines count from one; the lines of fenced code are no entries.

namespace Plans

open Text

structure Entry where
  number : ℕ
  level  : ℕ
  text   : String
  deriving DecidableEq

structure Range where
  first : ℕ
  last  : ℕ
  deriving DecidableEq

structure PhaseTitle where
  id    : String
  title : String

def Range.text (r : Range) : String :=
  toString r.first ++ "-" ++ toString r.last

-- A decimal number without leading zeros, above zero.
def number (digits : List Char) : Option ℕ :=
  match digits with
  | [] | '0' :: _ => none
  | _             => if digits.all Char.isDigit then some (Nat.ofDigitChars 10 digits 0) else none

def bounds (value : String) : Except String Range :=
  match number (value.toList.takeWhile (· ≠ '-')), number (value.toList.dropWhile (· ≠ '-')).tail with
  | some first, some last =>
    if first ≤ last then .ok ⟨first, last⟩ else .error "plan lines must be an ordered inclusive range"
  | _, _ => .error "plan lines must be an ordered inclusive range"

-- The marks and the rest of a line that opens or closes fenced code.
def fence (line : String) : Option (List Char × String) :=
  let stripped := (lstrip line).toList
  match stripped with
  | []     => none
  | c :: _ =>
    let marks := stripped.takeWhile (· = c)
    if (c = '`' ∨ c = '~') ∧ 3 ≤ marks.length then some (marks, strip (.ofList (stripped.drop marks.length)))
    else none

def bare (title : String) : String :=
  .ofList (title.toList.reverse.dropWhile (· = '#')).reverse

def heading (line : String) : Option (ℕ × String) :=
  let hashes := (line.toList.takeWhile (· = '#')).length
  let rest := line.toList.drop hashes
  if 1 ≤ hashes ∧ hashes ≤ 6 ∧ rest.head?.any space then
    let title := strip (.ofList rest)
    let bare := bare title
    some (hashes, if bare ≠ title ∧ bare.toList.getLast?.all space then rstrip bare else title)
  else none

def entry (number : ℕ) (line : String) : Entry :=
  match heading line with
  | some (level, title) => ⟨number, level, title⟩
  | none                => ⟨number, 0, line⟩

def closes (open' marks : List Char) (info : String) : Bool :=
  open'.isPrefixOf marks ∧ info = ""

-- The marks of the fence that is open after a line.
def toggle (open' : Option (List Char)) (line : String) : Option (List Char) :=
  match open', fence line with
  | none,       none               => none
  | none,       some (marks, _)    => some marks
  | some open', none               => some open'
  | some open', some (marks, info) => if closes open' marks info then none else some open'

-- The loop of `sections` from a line on.
def scan (open' : Option (List Char)) (number : ℕ) : List String → List Entry
  | []            => []
  | line :: lines =>
    let found := scan (toggle open' line) (number + 1) lines
    if open' = none ∧ fence line = none then entry number line :: found else found

def sections (text : String) : List Entry :=
  scan none 1 (splitlines text)

section Phases

variable (casefold : String → String)

def headings (entries : List Entry) (title : String) : List Entry :=
  entries.filter fun e => e.level ≠ 0 ∧ casefold e.text = casefold title

-- The next heading after a line of at most this level.
def next (entries : List Entry) (line level : ℕ) : Option Entry :=
  entries.find? fun e => line < e.number ∧ 0 < e.level ∧ e.level ≤ level

def phaseRange (text title : String) : Except String Range :=
  match headings casefold (sections text) title with
  | [e] => .ok ⟨e.number, ((next (sections text) e.number e.level).map (·.number - 1)).getD (splitlines text).length⟩
  | _   => .error ("plan needs one heading for phase " ++ title)

def rangesOf (text : String) : List PhaseTitle → KeyTable String String → Except String (KeyTable String String)
  | [],              found => .ok found
  | phase :: phases, found =>
    match phaseRange casefold text phase.title with
    | .error e => .error e
    | .ok r    => rangesOf text phases (found.insert phase.id r.text)

-- A plan without the heading of its only phase is that phase's as a whole.
def phaseLines (text : String) (phases : List PhaseTitle) : Except String (KeyTable String String) :=
  match phases with
  | [phase] =>
    if splitlines text ≠ [] ∧ headings casefold (sections text) phase.title = [] then
      .ok (.ofList [(phase.id, (Range.mk 1 (splitlines text).length).text)])
    else rangesOf casefold text [phase] ∅
  | phases => rangesOf casefold text phases ∅

end Phases

section Slices

-- The letters, digits and underscores of Unicode.
variable (word : Char → Bool)

def named (c : Char) : Bool :=
  word c || c == '.' || c == '-'

-- The name in `<!-- slice: name -->`.
def anchor (line : String) : Option String :=
  match (strip line).toList.dropPrefix? "<!--".toList with
  | none      => none
  | some rest =>
    match (rest.dropWhile space).dropPrefix? "slice:".toList with
    | none      => none
    | some rest =>
      match rest.dropSuffix? "-->".toList with
      | none      => none
      | some rest =>
        let name := (strip (.ofList rest)).toList
        if name ≠ [] ∧ name.all (named word) then some (.ofList name) else none

-- Whether a name stands in a title with nothing around it that a name may have.
def mentions (name title : String) : Bool :=
  let title := title.toList
  let name := name.toList
  (List.range (title.length + 1)).any fun i =>
    name.isPrefixOf (title.drop i) && !(title.take i).getLast?.any (named word) &&
      !(title.drop (i + name.length)).head?.any (named word)

-- The line that begins what an anchor marks, and the level of the headings that end it.
def owner (entries : List Entry) (line : ℕ) : ℕ × ℕ :=
  match entries.find? fun e => line < e.number ∧ (e.level ≠ 0 ∨ strip e.text ≠ "") with
  | some ⟨number, level + 1, _⟩ => (number, level + 1)
  | _ => (line, (((entries.filter fun e => e.number < line ∧ e.level ≠ 0).getLast?).map (·.level)).getD 6)

-- The last line that is not blank.
def trim (lines : List String) : ℕ → ℕ
  | 0        => 0
  | last + 1 => if strip (lines.getD last "") = "" then trim lines last else last + 1

-- The lines from the first one, where the body that headings of a level end begins at another one.
def cut (lines : List String) (entries : List Entry) (last first body level : ℕ) : Range :=
  let stop := entries.find? fun e => body < e.number ∧ ((anchor word e.text).isSome ∨ 0 < e.level ∧ e.level ≤ level)
  ⟨first, trim lines ((stop.map (·.number - 1)).getD last)⟩

def inside (text : String) (range : Range) : List Entry :=
  (sections text).filter fun e => range.first ≤ e.number ∧ e.number ≤ min range.last (splitlines text).length

def sliceLines (text name phaseRange : String) : Except String String :=
  let missing := .error ("slice anchor " ++ name ++ " is missing or repeated in its phase")
  if name = "" then missing else
  match bounds phaseRange with
  | .error e  => .error e
  | .ok range =>
    let lines := splitlines text
    let last := min range.last lines.length
    match (inside text range).filter fun e => anchor word e.text = some name with
    | [e] =>
      let owned := owner (inside text range) e.number
      .ok (cut word lines (inside text range) last e.number owned.1 owned.2).text
    | _ :: _ => missing
    | []     =>
      match (inside text range).filter fun e => e.level ≠ 0 ∧ mentions word name e.text with
      | [e] => .ok (cut word lines (inside text range) last e.number e.number e.level).text
      | _   => missing

end Slices
end Plans
