import Mathlib.Algebra.Order.Ring.Rat
import Mathlib.Data.List.MinMax
import Mathlib.Data.Prod.Lex
import Mathlib.Data.String.Basic
import Mathlib.Order.BooleanAlgebra.Basic

-- What a session does when its own quota runs out: it hands its task to another account, waits, stops or goes on.

namespace QuotaPolicy

def minRoutingLeft : ℚ := 5

-- The percentages of the account `api` are not read, it has none.
structure Candidate where
  account  : String
  fiveUsed : ℚ
  weekUsed : ℚ
  sessions : ℤ
  cap      : Option ℤ
  reserved : Bool
  deriving DecidableEq

namespace Candidate

def full (c : Candidate) : Bool :=
  c.cap.any fun cap => cap ≤ c.sessions

def routingLeft (c : Candidate) : ℚ :=
  max 0 (100 - max c.fiveUsed c.weekUsed)

end Candidate

inductive Action
  | handoff
  | wait
  | stop
  | push
  deriving DecidableEq

inductive Trigger
  | week
  | fiveHour
  deriving DecidableEq

structure Decision where
  action    : Action
  trigger   : Trigger
  account   : String
  fiveUsed  : ℚ
  weekUsed  : ℚ
  fiveReset : Option ℚ
  weekReset : Option ℚ
  target    : Option Candidate
  others    : List Candidate

structure Inputs where
  account         : String
  fiveUsed        : ℚ
  weekUsed        : ℚ
  fiveReset       : Option ℚ
  weekReset       : Option ℚ
  others          : List Candidate
  push            : Bool
  fivePct         : ℚ
  weekPct         : ℚ
  minLeft         : ℚ
  waitMinWeekLeft : ℚ
  reserve         : List String

namespace Inputs

variable (i : Inputs)

def weekHit : Bool :=
  i.weekPct ≤ i.weekUsed

def fiveHit : Bool :=
  i.fivePct ≤ i.fiveUsed

def api : Option Candidate :=
  i.others.find? fun c => c.account = "api" ∧ ¬ c.full

-- The first `pool`.
def room : List Candidate :=
  i.others.filter fun c =>
    c.account ≠ i.account ∧ c.account ≠ "api" ∧ ¬ c.reserved ∧ c.fiveUsed < i.fivePct ∧ c.weekUsed < i.weekPct

def openSlots : List Candidate :=
  i.room.filter fun c => ¬ c.full ∧ minRoutingLeft ≤ c.routingLeft

def unreserved : List Candidate :=
  (if i.openSlots = [] then i.room else i.openSlots).filter fun c =>
    c.account ∉ i.reserve ∧ minRoutingLeft ≤ c.routingLeft

def pool : List Candidate :=
  if i.unreserved = [] then i.room else i.unreserved

def good : List Candidate :=
  i.pool.filter fun c => i.minLeft ≤ c.routingLeft

def viable : List Candidate :=
  i.pool.filter fun c => minRoutingLeft ≤ c.routingLeft

def bestGood : Option Candidate :=
  i.good.argmin fun c => toLex (c.full, toLex (-c.routingLeft, c.account))

section Order

-- The order of the integers that computes.
local instance : Preorder ℤ :=
  Int.instLinearOrder.toPreorder

def leastBad : Option Candidate :=
  i.viable.argmin fun c => toLex (-c.routingLeft, toLex (c.sessions, c.account))

end Order

def made (action : Action) (trigger : Trigger) (target : Option Candidate) : Decision where
  action    := action
  trigger   := trigger
  account   := i.account
  fiveUsed  := i.fiveUsed
  weekUsed  := i.weekUsed
  fiveReset := i.fiveReset
  weekReset := i.weekReset
  target    := target
  others    := i.others.mergeSort fun a b => a.account ≤ b.account

-- Where no subscription takes the task: the api slot, or the session stays as it says.
def otherwise (stays : Action) (trigger : Trigger) : Decision :=
  if i.api.isSome ∧ ¬ i.push then i.made .handoff trigger i.api
  else i.made (if i.push then .push else stays) trigger none

-- The five-hour window comes back before the week is spent.
def comesBack : Bool :=
  i.waitMinWeekLeft ≤ 100 - i.weekUsed && i.fiveReset.isSome

def decide : Option Decision :=
  if i.account = "api" then none else
  if ¬ (i.weekHit ∨ i.fiveHit) then none else
  if i.weekHit then
    match i.bestGood.or i.leastBad with
    | some target => i.made .handoff .week target
    | none        => i.otherwise .stop .week
  else
    match i.bestGood with
    | some target => i.made .handoff .fiveHour target
    | none        =>
      if i.comesBack then i.otherwise .wait .fiveHour else
      match i.leastBad with
      | some target => i.made .handoff .fiveHour target
      | none        => i.otherwise .stop .fiveHour

end Inputs

end QuotaPolicy
