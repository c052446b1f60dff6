import Mathlib.Data.Rat.Defs
import Mathlib.Data.List.Dedup
import Mathlib.Logic.Function.Basic
import Mathlib.Algebra.Ring.Nat
import Mathlib.Algebra.Order.Ring.Unbundled.Rat

-- The allocation of seats to the ready tasks of the lanes: each turn takes the lane with the fewest workers, the first
-- of its tasks that some seat could take, and of the seats for it one that the split of its harness gives.

namespace Allocation

inductive Harness
  | claude
  | codex
  deriving DecidableEq

inductive Lane
  | eng
  | ci
  | plan
  deriving DecidableEq

inductive Kind
  | subscription
  | interactive
  | api
  deriving DecidableEq

def harnesses : List Harness :=
  [.claude, .codex]

-- `LANES`
def lanes : List Lane :=
  [.eng, .ci, .plan]

-- `Slot`, without the provider.
structure Seat where
  harness     : Harness
  account     : String
  cap         : ℤ
  sessions    : ℕ
  spendBefore : Option ℚ
  kind        : Kind
  weight      : Option ℚ
  deriving DecidableEq

namespace Seat

def key (seat : Seat) : Harness × String :=
  (seat.harness, seat.account)

def free (seat : Seat) : ℕ :=
  (seat.cap - seat.sessions).toNat

-- `_order`, compared as tuples are: `claude` is before `codex`.
def before (a b : Seat) : Bool :=
  let rest := if a.harness = b.harness then decide (a.account < b.account) else a.harness = .claude
  if a.sessions ≠ b.sessions then a.sessions < b.sessions
  else match a.spendBefore, b.spendBefore with
    | some x, some y => if x = y then rest else decide (x < y)
    | some _, none   => true
    | none,   some _ => false
    | none,   none   => rest

end Seat

-- `min`: the first of those that none is less than.
def least {α : Type} (less : α → α → Bool) : List α → Option α
  | []     => none
  | x :: l => some (l.foldl (fun best y => if less y best then y else best) x)

-- `session_bands.pick`
def freest (seats : List Seat) : Option Seat :=
  least Seat.before (seats.filter fun seat => seat.free ≠ 0)

inductive Side
  | api
  | pool
  deriving DecidableEq

-- The comparison of the live share of the api sessions with their weight is one of floats. It is given what it reads:
-- the live sessions on either side and the weights that are summed.
abbrev Split :=
  ℕ → ℕ → List ℚ → Bool

def chooseSide (split : Split) (api pool : List Seat) (weights : List ℚ) (apiLive poolLive : ℕ) (apiRoom : Bool) :
    Option Side :=
  if api = [] then some .pool
  else if pool = [] then if apiRoom then some .api else none
  else if split apiLive poolLive weights && apiRoom then some .api
  else some .pool

def place (split : Split) (api pool : List Seat) (weights : List ℚ) (poolLive : ℕ) : Option Seat :=
  let openPool := pool.filter fun seat => seat.free ≠ 0
  let apiLive  := (api.map Seat.sessions).sum
  match chooseSide split api openPool weights apiLive poolLive (api.any fun seat => seat.free ≠ 0) with
  | none       => none
  | some .api  => freest api
  | some .pool => freest openPool

-- `_side`
def side (split : Split) (offered : List Seat) (harness : Harness) (allowed : Seat → Bool) : Option Seat :=
  let api  := offered.filter fun seat => seat.harness = harness && seat.kind = .api && allowed seat
  let pool := offered.filter fun seat => seat.harness = harness && !decide (seat.kind = .api)
  place split api (pool.filter allowed) ((api.filterMap Seat.weight).filter (· ≠ 0)) (pool.map Seat.sessions).sum

def pick (split : Split) (offered : List Seat) (allowed : Seat → Bool) : Option Seat :=
  freest ((offered.map Seat.harness).dedup.filterMap fun harness => side split offered harness allowed)

-- `_harnesses`, of the agent that the lane is configured with.
def harnessesOf : Option String → List Harness
  | some "claude" => [.claude]
  | some "codex"  => [.codex]
  | _             => [.claude, .codex]

structure Input where
  agents       : Lane → Option String
  effective    : Lane → ℕ
  limits       : Lane → ℕ
  seats        : List Seat
  requirements : Option (Lane → List (List Harness))
  accounts     : Lane → ℕ → Option (List (Harness × String))

-- The harnesses that each task of a lane may run on.
def Input.options (input : Input) (lane : Lane) : List (List Harness) :=
  match input.requirements with
  | some requirements => requirements lane
  | none              => List.replicate (input.limits lane) (harnessesOf (input.agents lane))

def Input.choices (input : Input) (lane : Lane) (index : ℕ) : List Harness :=
  (input.options lane)[index]?.getD []

structure Placement where
  index   : ℕ
  harness : Harness
  account : String
  deriving DecidableEq

-- The locals of `_allocate`.
structure State where
  held       : List Seat
  effective  : Lane → ℕ
  cursors    : Lane → ℕ
  allocation : Lane → Harness → ℕ
  placements : Lane → List Placement

-- An entry of a dictionary is replaced where it stands.
def put (held : List Seat) (seat : Seat) : List Seat :=
  if held.any (·.key = seat.key) then held.map fun s => if s.key = seat.key then seat else s else held ++ [seat]

def start (input : Input) : State where
  held         := input.seats.foldl put []
  effective    := input.effective
  cursors _    := 0
  allocation _ := fun _ => 0
  placements _ := []

-- `a[first:last]` for a first index that is not negative.
def slice {α : Type} (l : List α) (first : ℕ) (last : ℤ) : List α :=
  (l.take (if last < 0 then l.length + last else last).toNat).drop first

section Turn

variable (split : Split) (input : Input) (s : State)

def usable (lane : Lane) (index : ℕ) (seat : Seat) : Bool :=
  match input.accounts lane index with
  | none         => true
  | some allowed => seat.key ∈ allowed

def room (lane : Lane) (index : ℕ) (harness : Harness) : ℕ :=
  ((s.held.filter fun seat => seat.harness = harness && usable input lane index seat).map Seat.free).sum

def remaining (harness : Harness) : ℕ :=
  ((s.held.filter fun seat => seat.harness = harness).map Seat.free).sum

-- The first task from the cursor on that some seat could take, if the lane is below its limit.
def readyIndex (lane : Lane) : Option ℕ :=
  if input.limits lane ≤ s.effective lane then none
  else (List.range' (s.cursors lane) ((input.options lane).length - s.cursors lane)).find? fun i =>
    (input.choices lane i).any fun harness => room input s lane i harness ≠ 0

-- `_ready_indices`
def ready : List (Lane × ℕ) :=
  lanes.filterMap fun lane => (readyIndex input s lane).map fun index => (lane, index)

-- The tasks of a lane that are still to come, as many as it is below its limit.
def future (lane : Lane) : List (List Harness) :=
  slice (input.options lane) (s.cursors lane) (s.cursors lane + input.limits lane - s.effective lane)

-- `_reserved`
def reserved (harness : Harness) : ℕ :=
  (lanes.map fun lane => (future input s lane).count [harness]).sum

inductive Turn
  | ended
  | failed
  | placed (s : State)

def State.place (lane : Lane) (index : ℕ) (seat : Seat) : State where
  held       := put s.held { seat with sessions := seat.sessions + 1 }
  effective  := Function.update s.effective lane (s.effective lane + 1)
  cursors    := Function.update s.cursors lane (index + 1)
  allocation := Function.update s.allocation lane
    (Function.update (s.allocation lane) seat.harness (s.allocation lane seat.harness + 1))
  placements := Function.update s.placements lane (s.placements lane ++ [⟨index, seat.harness, seat.account⟩])

def State.moved (lane : Lane) (index : ℕ) : State :=
  { s with cursors := Function.update s.cursors lane index }

-- The harnesses with room for the task, and of these the ones with more seats than tasks that need them.
def wanted (lane : Lane) (index : ℕ) : List Harness :=
  let eligible := (input.choices lane index).filter fun harness => room input s lane index harness ≠ 0
  let spare    := eligible.filter fun harness => reserved input (s.moved lane index) harness < remaining s harness
  if spare = [] then eligible else spare

-- One pass of the loop of `_allocate`. It fails when `pick` finds no seat.
def turn : Turn :=
  match least (fun x y => s.effective x.1 < s.effective y.1) (ready input s) with
  | none               => .ended
  | some (lane, index) =>
    match pick split s.held fun seat => seat.harness ∈ wanted input s lane index && usable input lane index seat with
    | none      => .failed
    | some seat => .placed (s.place lane index seat)

end Turn

def loop (split : Split) (input : Input) : ℕ → State → Option State
  | 0,     _ => none
  | n + 1, s =>
    match turn split input s with
    | .ended    => some s
    | .failed   => none
    | .placed s => loop split input n s

-- `_allocate`: each turn takes one of the places that the lanes have below their limits.
def allocate (split : Split) (input : Input) : Option State :=
  loop split input ((lanes.map fun lane => input.limits lane - input.effective lane).sum + 1) (start input)

end Allocation
