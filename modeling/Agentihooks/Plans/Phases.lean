import Mathlib.Data.Finset.Card
import Agentihooks.Plans.Ranges

-- The fields of phases and what they depend on. A phase is a dictionary with an id.

namespace Plans

structure Phase where
  id     : String
  fields : List (String × JsonValue)

-- A ValueError with its text, or a KeyError.
inductive Failure
  | refused (text : String)
  | missing (phase : String)
  deriving DecidableEq

-- `^https?://[^\s]+$`, where the end may come before a last line break.
def isUrl (text : String) : Bool :=
  match (text.toList.dropPrefix? "http://".toList).or (text.toList.dropPrefix? "https://".toList) with
  | none      => false
  | some rest =>
    let rest := if rest.getLast? = some '\n' then rest.dropLast else rest
    rest ≠ [] ∧ rest.all fun c => !Text.space c

section Fields

-- The scheme and the location of an address.
variable (urlsplit : String → Except String (String × String)) (fields : List (String × JsonValue))

-- `check_ref`: why a reference to a plan is refused.
def refRefusal : JsonValue → Option String
  | .object ref =>
    if ¬ (ref.map Prod.fst).Perm ["artifact", "lines"] then some "plan_ref needs artifact and lines" else
    match ref.lookup "artifact" with
    | some (.scalar (.str artifact)) =>
      match urlsplit artifact with
      | .error e               => some e
      | .ok (scheme, location) =>
        if (scheme ≠ "http" ∧ scheme ≠ "https") ∨ location = "" then some "plan artifact must be an http or https link"
        else
          match ref.lookup "lines" with
          | some (.scalar (.str lines)) =>
            match bounds lines with
            | .error e => some e
            | .ok _    => none
          | _ => some "plan lines must be an ordered inclusive range"
    | _ => some "plan artifact must be an http or https link"
  | _ => some "plan_ref needs artifact and lines"

-- A field that may be absent, and is refused with a text where it is something else than it should be.
def refusal (key text : String) (ok : JsonValue → Bool) : Option String :=
  match fields.lookup key with
  | none   => none
  | some v => if ok v then none else some text

def isText : JsonValue → Bool
  | .scalar (.str _) => true
  | _                => false

def isId : JsonValue → Bool
  | .scalar (.str s) => s ≠ ""
  | _                => false

def isIds : JsonValue → Bool
  | .array items => items.all isId
  | _            => false

def isPlanning : JsonValue → Bool
  | .scalar (.str s) => s = "manual" ∨ s = "auto"
  | _                => false

def isFlag : JsonValue → Bool
  | .scalar (.bool _) => true
  | _                 => false

def isLink : JsonValue → Bool
  | .scalar (.str s) => isUrl s
  | _                => false

def checkFields : Except Failure Unit :=
  match (fields.lookup "plan_ref").bind (refRefusal urlsplit)
    <|> refusal fields "title" "title must be a string" isText
    <|> refusal fields "description" "description must be a string" isText
    <|> refusal fields "plan" "plan must be a string" isText
    <|> refusal fields "depends_on" "depends_on must be a list of nonempty phase ids" isIds
    <|> refusal fields "planning" "planning must be manual or auto" isPlanning
    <|> refusal fields "release" "release must be a boolean" isFlag
    <|> refusal fields "plan_url" "plan_url must be an http or https link" isLink with
  | none      => .ok ()
  | some text => .error (.refused text)

end Fields

def Phase.dependsOn (phase : Phase) : List String :=
  match phase.fields.lookup "depends_on" with
  | some (.array items) => items.filterMap fun
    | .scalar (.str s) => some s
    | _                => none
  | _ => []

-- Of phases with one id the last one counts.
def graph (phases : List Phase) : KeyTable String (List String) :=
  .ofList (phases.map fun phase => (phase.id, phase.dependsOn))

section Visits

variable (graph : KeyTable String (List String))

theorem unchained_lt {phase : String} {chain : List String} (hp : phase ∉ chain) (hg : graph.lookup phase ≠ none) :
    (graph.keys.toFinset \ (chain ++ [phase]).toFinset).card < (graph.keys.toFinset \ chain.toFinset).card := by
  have hk := KeyTable.mem_keys_iff.mpr hg
  refine Finset.card_lt_card (Finset.ssubset_iff_of_subset ?_ |>.mpr ⟨phase, ?_, ?_⟩)
  · refine Finset.sdiff_subset_sdiff subset_rfl fun x hx => ?_
    simp only [List.toFinset_append, Finset.mem_union]
    exact .inl hx
  · simp [hk, hp]
  · simp

mutual

def visit (phase : String) (chain visited : List String) : Except Failure (List String) :=
  if hp : phase ∈ chain then
    .error (.refused ("phase dependency cycle: " ++ " -> ".intercalate (chain.drop (chain.idxOf phase) ++ [phase])))
  else if phase ∈ visited then .ok visited
  else
    match hg : graph.lookup phase with
    | none              => .error (.missing phase)
    | some dependencies =>
      match visitEach dependencies (chain ++ [phase]) visited with
      | .error e    => .error e
      | .ok visited => .ok (visited ++ [phase])
termination_by ((graph.keys.toFinset \ chain.toFinset).card, 0)
decreasing_by exact .left _ _ (unchained_lt graph hp (by simp [hg]))

def visitEach : List String → List String → List String → Except Failure (List String)
  | [],              _,     visited => .ok visited
  | phase :: phases, chain, visited =>
    match visit phase chain visited with
    | .error e    => .error e
    | .ok visited => visitEach phases chain visited
termination_by phases chain => ((graph.keys.toFinset \ chain.toFinset).card, phases.length + 1)

end

-- The first loop of `validate`.
def checkEach (urlsplit : String → Except String (String × String)) : List Phase → Except Failure Unit
  | []              => .ok ()
  | phase :: phases =>
    match checkFields urlsplit phase.fields with
    | .error e => .error e
    | .ok ()   =>
      match phase.dependsOn.filter (· ∉ graph.keys) with
      | []      => checkEach urlsplit phases
      | unknown => .error (.refused ("phase " ++ phase.id ++ " depends on unknown phases: " ++ ", ".intercalate unknown))

end Visits

def validate (urlsplit : String → Except String (String × String)) (phases : List Phase) : Except Failure Unit :=
  match checkEach (graph phases) urlsplit phases with
  | .error e => .error e
  | .ok ()   =>
    match visitEach (graph phases) (phases.map (·.id)).eraseDups [] [] with
    | .error e => .error e
    | .ok _    => .ok ()

end Plans
