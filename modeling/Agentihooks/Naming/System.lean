import Agentihooks.Objects.Rows

-- The registry of swarm codes and agent names. Every operation is a chain of reads and of writes of single keys, and
-- a write is atomic: it is repeated until the key is still the one that it read.

namespace Naming

inductive Kind
  | master
  | engineer
  | ci
  | planner
  | dispatcher
  deriving DecidableEq

-- A name as `build` gives it, or any other text.
inductive Name
  | agent (kind : Kind) (code : String) (number : ℕ)
  | other (text : String)
  deriving DecidableEq

structure SwarmRecord where
  swarm  : String
  name   : String
  ledger : String
  repo   : String
  deriving DecidableEq

structure NameRow where
  type      : Kind
  number    : ℕ
  code      : String
  swarm     : String
  sessionId : String
  spawnedAt : Int
  retiredAt : Int
  deriving DecidableEq

-- The keys of the names state, by their kinds. A key that is missing or removed reads as none.
structure Store where
  codes     : Dict String SwarmRecord
  codeOf    : Dict String String
  seq       : Dict String (Kind → ℕ)
  names     : Dict Name NameRow
  aliasOf   : Dict Name Name
  aliasesOf : Dict Name (Finset Name)

-- A row of an export, with the value that a restore writes.
inductive Row
  | codes (code : String) (record : SwarmRecord)
  | codeOf (slug code : String)
  | seq (code : String) (counters : Kind → ℕ)
  | name (name : Name) (row : NameRow)
  | aliasesOf (name : Name) (olds : Finset Name)
  | aliasOf (old name : Name)

def codeRe (code : String) : Bool :=
  code.length = 6 ∧ code.toList.all fun c => c.isDigit || ('a' ≤ c ∧ c ≤ 'f')

def swarmName (code : String) : String :=
  if code = "" then "" else "swarm@" ++ code

def record (slug code ledger repo : String) : SwarmRecord :=
  ⟨slug, swarmName code, ledger, repo⟩

-- What `build` takes.
def builds (code : String) (number : ℕ) : Bool :=
  codeRe code ∧ 0 < number ∧ number < 10000

namespace Store

variable (s : Store)

def empty : Store :=
  ⟨∅, ∅, ∅, ∅, ∅, ∅⟩

def resolve (name : Name) : Name :=
  (s.aliasOf.lookup name).getD name

def counter (code : String) (kind : Kind) : ℕ :=
  ((s.seq.lookup code).getD fun _ => 0) kind

def aliases (name : Name) : Finset Name :=
  (s.aliasesOf.lookup name).getD ∅

-- `_hold_code`.
def holdCode (code : String) (record : SwarmRecord) : Store :=
  if (s.codes.lookup code).isNone then { s with codes := s.codes.insert code record } else s

-- `_hold_code_of`.
def holdCodeOf (slug code : String) : Store :=
  if (s.codeOf.lookup slug).isNone then { s with codeOf := s.codeOf.insert slug code } else s

def count (code : String) (kind : Kind) : Store :=
  let seq := (s.seq.lookup code).getD fun _ => 0
  { s with seq := s.seq.insert code (Function.update seq kind (seq kind + 1)) }

def amendName (name : Name) (change : NameRow → NameRow) : Store :=
  match s.names.lookup name with
  | some row => { s with names := s.names.insert name (change row) }
  | none     => s

def write : Row → Store
  | .codes code record    => { s with codes := s.codes.insert code record }
  | .codeOf slug code     => { s with codeOf := s.codeOf.insert slug code }
  | .seq code counters    => { s with seq := s.seq.insert code counters }
  | .name name row        => { s with names := s.names.insert name row }
  | .aliasesOf name olds  => { s with aliasesOf := s.aliasesOf.insert name olds }
  | .aliasOf old name     => { s with aliasOf := s.aliasOf.insert old name }

-- `names`: those that the counters gave.
def namesOf (code : String) : List Name :=
  [Kind.master, .engineer, .ci, .planner, .dispatcher].flatMap fun kind =>
    (List.range (s.counter code kind)).map fun n => .agent kind code (n + 1)

-- The rows that `export` has for a name: its own, its aliases, and each of them. The order of the aliases is given.
def exportName (sorted : Finset Name → List Name) (name : Name) : List Row :=
  match s.names.lookup (s.resolve name) with
  | some row =>
    let olds := s.aliases (s.resolve name)
    .name (s.resolve name) row :: .aliasesOf (s.resolve name) olds :: (sorted olds).map (.aliasOf · (s.resolve name))
  | none     => []

-- `export`.
def «export» (sorted : Finset Name → List Name) (slug : String) : List Row :=
  match s.codeOf.lookup slug with
  | some code =>
    let record := (s.codes.lookup code).toList.map (.codes code)
    record ++ [.codeOf slug code, .seq code (s.counter code)] ++ (s.namesOf code).flatMap (s.exportName sorted)
  | none      => []

end Store

end Naming

-- Several processes call the registry's operations. One step of a process is one read or one write of a single key.

namespace Naming

inductive Call
  | mintCode (slug ledger repo : String)
  | adopt (slug code ledger repo : String)
  | release (slug : String)
  | next (slug : String) (kind : Kind) (time : Int)
  | note (name : Name) (fields : NameRow → NameRow)
  | retire (name : Name) (time : Int)
  | «alias» (old new : Name)
  | restore (rows : List Row)

-- Where a process is in its call: `called` is the call's first access, the others come in between.
inductive Stage
  | idle
  | called (call : Call)
  | minting (slug ledger repo : String) (tries : ℕ)
  | minted (slug code : String)
  | lost (slug code : String)
  | adopting (slug code : String)
  | counting (slug code : String) (kind : Kind) (time : Int)
  | naming (name : Name) (row : NameRow)
  | noting (name : Name) (fields : NameRow → NameRow)
  | retiring (name found : Name) (time : Int)
  | checking (old new : Name)
  | looking (old new found : Name)
  | verifying (old new : Name)
  | peeking (old new : Name)
  | listing (old new : Name)
  | pointing (old new : Name)
  | undoing (old new : Name)
  | restoring (rows : List Row)

namespace Stage

def mintAttempts : ℕ :=
  20

-- The stages of an alias call.
def Aliases : Stage → Prop
  | .called (.«alias» ..) | .checking .. | .looking .. | .verifying .. | .peeking .. | .listing .. | .pointing ..
  | .undoing .. => True
  | _           => False

end Stage

-- What one access does: the store after it, the next stage, and the name that a call of `next` returns by it.
-- The code is what `mint` answers, where the access is one that mints.
def advance (s : Store) (mint : String) : Stage → Store × Stage × Option Name
  | .idle => (s, .idle, none)
  | .called (.mintCode slug ledger repo) =>
    match s.codeOf.lookup slug with
    | some _ => (s, .idle, none)
    | none   => (s, .minting slug ledger repo Stage.mintAttempts, none)
  | .minting _ _ _ 0 => (s, .idle, none)
  | .minting slug ledger repo (tries + 1) =>
    if (s.codes.lookup mint).isNone then
      (s.holdCode mint (record slug mint ledger repo), .minted slug mint, none)
    else
      (s, .minting slug ledger repo tries, none)
  | .minted slug code =>
    let held := s.holdCodeOf slug code
    (held, if held.codeOf.lookup slug = some code then .idle else .lost slug code, none)
  | .lost _ code => ({ s with codes := s.codes.erase code }, .idle, none)
  | .called (.adopt slug code ledger repo) =>
    (s.holdCode code (record slug code ledger repo), .adopting slug code, none)
  | .adopting slug code => (s.holdCodeOf slug code, .idle, none)
  | .called (.release slug) => ({ s with codeOf := s.codeOf.erase slug }, .idle, none)
  | .called (.next slug kind time) =>
    match s.codeOf.lookup slug with
    | some code => (s, .counting slug code kind time, none)
    | none      => (s, .idle, none)
  | .counting slug code kind time =>
    let counted := s.count code kind
    let number := counted.counter code kind
    -- `build` refuses a number past the four digits, once the counter has it.
    if builds code number then
      (counted, .naming (.agent kind code number) ⟨kind, number, code, slug, "", time, 0⟩, none)
    else
      (counted, .idle, none)
  | .naming name row => ({ s with names := s.names.insert name row }, .idle, some name)
  | .called (.note name fields) => (s, .noting (s.resolve name) fields, none)
  | .noting name fields => (s.amendName name fields, .idle, none)
  | .called (.retire name time) => (s, .retiring name (s.resolve name) time, none)
  | .retiring name found time =>
    match s.names.lookup found with
    | some row =>
      if row.retiredAt = 0 then
        (s, .called (.note name fun row => { row with retiredAt := time }), none)
      else
        (s, .idle, none)
    | none => (s, .idle, none)
  | .called (.«alias» old new) =>
    if old = s.resolve new then (s, .idle, none) else (s, .checking old (s.resolve new), none)
  | .checking old new => (s, .looking old new (s.resolve new), none)
  | .looking old new found =>
    (s, if (s.names.lookup found).isSome then .verifying old new else .idle, none)
  | .verifying old new => (s, if (s.names.lookup old).isSome then .idle else .peeking old new, none)
  | .peeking old new =>
    (s, if (s.aliasOf.lookup old).any (· ≠ new) then .idle else .listing old new, none)
  | .listing old new =>
    ({ s with aliasesOf := s.aliasesOf.insert new (insert old (s.aliases new)) }, .pointing old new, none)
  | .pointing old new =>
    match s.aliasOf.lookup old with
    | some held => (s, if held = new then .idle else .undoing old new, none)
    | none      => ({ s with aliasOf := s.aliasOf.insert old new }, .idle, none)
  | .undoing old new =>
    ({ s with aliasesOf := s.aliasesOf.insert new ((s.aliases new).erase old) }, .idle, none)
  | .called (.restore rows) => (s, .restoring rows, none)
  | .restoring [] => (s, .idle, none)
  | .restoring (row :: rows) => (s.write row, .restoring rows, none)

structure State (κ : Type) where
  store    : Store
  stages   : κ → Stage
  returned : List Name

inductive Action (κ : Type)
  | call (process : κ) (call : Call)
  | step (process : κ) (mint : String)

variable {κ : Type} [DecidableEq κ]

-- A process that is in a call makes no other one.
def step (s : State κ) : Action κ → State κ
  | .call process call =>
    match s.stages process with
    | .idle => { s with stages := Function.update s.stages process (.called call) }
    | _     => s
  | .step process mint =>
    let (store, stage, name) := advance s.store mint (s.stages process)
    ⟨store, Function.update s.stages process stage, s.returned ++ name.toList⟩

end Naming

-- What the registry is for: the names it gives are unique, and codes, names and aliases stay related as they are read.

namespace Naming

namespace Stage

def named : Stage → Option Name
  | .naming name _ => some name
  | _              => none

-- The swarm and the code that a mint has written to the codes, and may remove from them.
def held : Stage → Option (String × String)
  | .minted slug code | .lost slug code => some (slug, code)
  | _                                   => none

-- The old and new name of an alias call that has found the new one registered.
def bound : Stage → Option (Name × Name)
  | .verifying old new | .peeking old new | .listing old new | .pointing old new => some (old, new)
  | _                                                                            => none

-- The old name of an alias call that has found it not to be registered.
def aliased : Stage → Option Name
  | .peeking old _ | .listing old _ | .pointing old _ => some old
  | _                                                 => none

-- The old and new name of an alias call that has added the one to the list of the other.
def listed : Stage → Option (Name × Name)
  | .pointing old new | .undoing old new => some (old, new)
  | _                                    => none

-- The aliases that a restore has still to write.
def due : Stage → List (Name × Name)
  | .restoring rows => rows.filterMap fun | .aliasOf old name => some (old, name) | _ => none
  | _               => []

end Stage

namespace Store

variable (s : Store)

def Records (slug code : String) : Prop :=
  (s.codes.lookup code).map (·.swarm) = some slug

instance {slug code} : Decidable (s.Records slug code) :=
  inferInstanceAs (Decidable (_ = _))

def Registered (name : Name) : Prop :=
  (s.names.lookup name).isSome

instance {name} : Decidable (s.Registered name) :=
  inferInstanceAs (Decidable (_ = _))

structure Consistent : Prop where
  recorded   : ∀ slug code, s.codeOf.lookup slug = some code → s.Records slug code
  unaliased  : ∀ name, s.Registered name → s.aliasOf.lookup name = none
  registered : ∀ old name, s.aliasOf.lookup old = some name → s.Registered name
  listed     : ∀ old name, old ∈ s.aliases name ↔ s.aliasOf.lookup old = some name

end Store

namespace State

variable {κ : Type} (s : State κ)

structure Initial : Prop where
  consistent : s.store.Consistent
  idle       : ∀ p, s.stages p = .idle
  returned   : s.returned = []

-- No alias of the name is recorded, or is being recorded after the call found that the name is not registered.
def Unaliased (name : Name) : Prop :=
  s.store.aliasOf.lookup name = none ∧ ∀ p, (s.stages p).aliased ≠ some name

def Unheld (code : String) : Prop :=
  ∀ p, (s.stages p).held.map (·.snd) ≠ some code

-- Every restore that has still to write an alias of `old` makes it one of `name`.
def DueOnly (old name : Name) : Prop :=
  ∀ p, ∀ due ∈ (s.stages p).due, due.fst = old → due.snd = name

-- A restore writes a row that takes nothing back.
def Restores (rest : List Row) : Row → Prop
  | .codes code record    => ∀ held, s.store.codes.lookup code = some held → held.swarm = record.swarm
  | .codeOf slug code     => s.store.Records slug code ∧ s.Unheld code
  | .seq code counters    => ∀ kind, s.store.counter code kind ≤ counters kind
  | .name name _          => s.Unaliased name
  | .aliasesOf name olds  => s.store.aliases name ⊆ olds ∧ ∀ old ∈ olds, s.store.aliasOf.lookup old ≠ some name →
    s.store.aliasOf.lookup old = none ∧ (old, name) ∈ (Stage.restoring rest).due
  | .aliasOf old name     => s.store.Registered name ∧ ¬s.store.Registered old ∧ old ∈ s.store.aliases name ∧
    (∀ held, s.store.aliasOf.lookup old = some held → held = name) ∧ s.DueOnly old name

-- The condition on the access that a process makes next.
def MeetsAt : Stage → Prop
  | .called (.adopt slug code _ _) =>
    (∀ held, s.store.codes.lookup code = some held → held.swarm = slug) ∧ s.Unheld code
  | .naming name _           => s.Unaliased name
  | .checking _ new          => s.store.aliasOf.lookup new = none
  | .pointing old new        => s.store.aliasOf.lookup old = none → s.DueOnly old new
  | .restoring (row :: rows) => s.Restores rows row
  | _                        => True

def Meets : Action κ → Prop
  | .call ..   => True
  | .step p _  => s.MeetsAt (s.stages p)

structure Stable : Prop where
  unique     : s.returned.Nodup
  recorded   : ∀ slug code, s.store.codeOf.lookup slug = some code → s.store.Records slug code
  registered : ∀ name, s.store.Registered name → s.store.resolve name = name
  resolved   : ∀ name, s.store.resolve (s.store.resolve name) = s.store.resolve name
  listed     : (∀ p, ¬(s.stages p).Aliases) → ∀ old name, s.store.aliasOf.lookup old = some name →
    old ∈ s.store.aliases name ∧ ∀ other, old ∈ s.store.aliases other → other = name

end State

end Naming
